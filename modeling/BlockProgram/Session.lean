import BlockProgram.Code.Program
import BlockProgram.Document.Read
import BlockProgram.Document.Write
import BlockProgram.Host.Channel
import BlockProgram.Workspace.Edit

/-!
# Sessions

A session waits for a canvas, then keeps the program and the document of the canvas at hand
while the canvas is edited, and tells the host both after every change. A change that is
refused is not told. A session that is not ready does nothing but end.
-/

namespace BlockProgram

/-- How far a session is. -/
inductive Stage where
  /-- It has no canvas yet. -/
  | uninitialized
  /-- It can be used. -/
  | ready
  /-- It never got a canvas. -/
  | failed
  /-- It has ended. -/
  | disposed
  deriving DecidableEq, Repr

/-- The word for a stage. -/
def Stage.name : Stage → String
  | uninitialized => "uninitialized"
  | ready => "ready"
  | failed => "failed"
  | disposed => "disposed"

/-- Why a session refuses what it is asked. -/
inductive SessionError where
  /-- It is not ready. -/
  | notReady (stage : Stage)
  /-- The canvas cannot be changed so. -/
  | edit (e : EditError)
  /-- The document cannot be read. -/
  | document (e : DocumentError)
  deriving DecidableEq, Repr

/-- The reason of a refusal in words. -/
def SessionError.message : SessionError → String
  | notReady stage => "session is " ++ stage.name ++ ", not ready"
  | edit e => e.message
  | document e => e.message

/-- What happens on the canvas. -/
inductive Event where
  /-- A chain is put on it. -/
  | created (block : Block) (position : Option Position)
  /-- A chain is moved. -/
  | moved (id : BlockId) (placement : Placement)
  /-- A setting is changed. -/
  | changed (id : BlockId) (name : String) (value : Field)
  /-- A block is deleted. -/
  | deleted (id : BlockId)
  /-- A variable is created. -/
  | variableCreated (name : String)
  /-- A variable is renamed. -/
  | variableRenamed (handle : Handle) (name : String)
  /-- A variable is deleted. -/
  | variableDeleted (handle : Handle)
  /-- Another part of it is looked at. -/
  | viewport
  /-- Another block is picked, or none. -/
  | selection (id : Option BlockId)
  deriving DecidableEq, Repr

/-- What came of an event. -/
inductive Outcome where
  /-- The program and the document were made anew. -/
  | regenerated
  /-- Only the view has changed. -/
  | layoutRefresh
  deriving DecidableEq, Repr

/-- What a session can be asked for while it runs. -/
inductive Command where
  /-- Take note of an event. -/
  | event (e : Event)
  /-- Do what the host asks for. -/
  | host (c : HostCommand)
  /-- End. -/
  | dispose
  deriving DecidableEq, Repr

/-- What a session works with throughout. -/
structure Setup (σ : Type) where
  /-- The way to the host. -/
  channel : Channel σ
  /-- The order in which chains are written. -/
  order : Order

/-- A session, over a channel that has taken something of type `σ`. -/
structure Session (σ : Type) where
  /-- How far it is. -/
  stage : Stage
  /-- The canvas. -/
  workspace : Workspace
  /-- The program at hand. -/
  code : String
  /-- The document at hand. -/
  document : String
  /-- What the host has been told. -/
  sent : σ
  deriving DecidableEq, Repr

/-- What the host is told when no canvas comes. -/
def timeoutMessage : String := "Timed out waiting for the block editor"

/-- The canvas after an event, or the reason why it is refused, with what is left of the
canvas; nothing if the event does not touch the canvas. -/
def Event.apply (w : Workspace) : Event → Option (Edited Unit)
  | created b position => some (w.add b position)
  | moved id placement => some (w.move id placement)
  | changed id name value => some (w.setField id name value)
  | deleted id => let (result, w) := w.remove id; some (result.map fun _ => (), w)
  | variableCreated name => some (.ok (), (w.createVariable name).2)
  | variableRenamed h name =>
    let (result, w) := w.renameVariable h name
    some (result.map fun _ => (), w)
  | variableDeleted h => some (w.deleteVariable h)
  | viewport => none
  | selection _ => none

namespace Session

variable {σ : Type}

/-- A session without a canvas. -/
def new (sent : σ) : Session σ := ⟨.uninitialized, .empty, "", "", sent⟩

/-- The session after a message was offered to the host. -/
def tell (setup : Setup σ) (m : HostMessage) (s : Session σ) : Session σ :=
  { s with sent := setup.channel.offer s.sent m }

/-- The program and the document of a canvas are made, kept, and told. -/
def publish (setup : Setup σ) (w : Workspace) (s : Session σ) : Session σ :=
  let code := w.program setup.order
  let document := Document.write w
  { s with workspace := w, code := code, document := document }
    |>.tell setup (.program code) |>.tell setup (.document document)

/-- A session that waits for a canvas by asking for it again and again, given the answers up to
the end of its patience: the first canvas is taken, and its names are migrated. -/
def start (setup : Setup σ) (sent : σ) (answers : List (Option Workspace)) : Session σ :=
  match answers.findSome? (·) with
  | none => { new sent with stage := .failed }.tell setup (.failure timeoutMessage)
  | some w => { new sent with stage := .ready }.publish setup w.migrate.2

/-- The session has ended. -/
def dispose (s : Session σ) : Session σ := { s with stage := .disposed }

/-- An event is taken note of. -/
def handle (setup : Setup σ) (s : Session σ) (e : Event) :
    Except SessionError Outcome × Session σ :=
  if s.stage = .ready then
    match e.apply s.workspace with
    | none => (.ok .layoutRefresh, s)
    | some (.ok (), w) => (.ok .regenerated, s.publish setup w)
    | some (.error fault, w) => (.error (.edit fault), { s with workspace := w })
  else (.error (.notReady s.stage), s)

/-- Another document is put in the place of the canvas. -/
def restore (setup : Setup σ) (s : Session σ) (xml : String) :
    Except SessionError Unit × Session σ :=
  if s.stage = .ready then
    match Document.read xml with
    | .error fault => (.error (.document fault), s)
    | .ok w => (.ok (), s.publish setup w.migrate.2)
  else (.error (.notReady s.stage), s)

/-- What the host asks for is done. -/
def obey (setup : Setup σ) (s : Session σ) : HostCommand → Except SessionError Unit × Session σ
  | .restore xml => s.restore setup xml
  | .dispose => (.ok (), s.dispose)

/-- What the host writes is done, or ignored if it is no command. -/
def hear (setup : Setup σ) (s : Session σ) (text : String) :
    Except SessionError Unit × Session σ :=
  match HostCommand.parse? text with
  | some c => s.obey setup c
  | none => (.ok (), s)

/-- The session after a command, whatever its answer. -/
def step (setup : Setup σ) (s : Session σ) : Command → Session σ
  | .event e => (s.handle setup e).2
  | .host c => (s.obey setup c).2
  | .dispose => s.dispose

/-- The session after commands, taken one by one until one ends it. -/
def run (setup : Setup σ) : Session σ → List Command → Session σ
  | s, [] => s
  | s, c :: cs =>
    let s := s.step setup c
    if s.stage = .disposed then s else run setup s cs

end Session

end BlockProgram
