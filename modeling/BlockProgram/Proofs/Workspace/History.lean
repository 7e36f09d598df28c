import BlockProgram.Proofs.Document.Read

/-!
# Canvases over time

A canvas begins with nothing on it or is read from a document, and then changes call by call.
Whatever the calls are, and whether or not they are refused, it stays sound.
-/

namespace BlockProgram

/-- A call that may change a canvas, with its arguments. The settings and slots of a block that
is handed over are in order, as those of any map by name are. -/
inductive Call where
  /-- A chain is put on the canvas. -/
  | add (b : Block) (ordered : b.Ordered) (position : Option Position)
  /-- A chain is moved. -/
  | move (id : BlockId) (placement : Placement)
  /-- A block is deleted. -/
  | remove (id : BlockId)
  /-- A setting is given a value. -/
  | setField (id : BlockId) (name : String) (value : Field)
  /-- A variable is created. -/
  | createVariable (name : String)
  /-- A variable is renamed. -/
  | renameVariable (h : Handle) (name : String)
  /-- A variable is deleted. -/
  | deleteVariable (h : Handle)
  /-- The names of the variables are migrated. -/
  | migrate
  /-- An identity is made up. -/
  | mint

namespace Workspace

/-- A canvas as it is at the beginning: with nothing on it, or as it is read. -/
inductive Origin : Workspace → Prop where
  /-- Nothing is on it. -/
  | empty : Origin .empty
  /-- It is read from a document. -/
  | read {text : String} {w : Workspace} (h : Document.read text = .ok w) : Origin w

/-- The canvas after a call, whatever the answer. -/
def call (w : Workspace) : Call → Workspace
  | .add b _ position => (w.add b position).2
  | .move id placement => (w.move id placement).2
  | .remove id => (w.remove id).2
  | .setField id name value => (w.setField id name value).2
  | .createVariable name => (w.createVariable name).2
  | .renameVariable h name => (w.renameVariable h name).2
  | .deleteVariable h => (w.deleteVariable h).2
  | .migrate => w.migrate.2
  | .mint => w.mint.2

/-- The canvas after calls, one after the other. -/
def callAll (w : Workspace) (calls : List Call) : Workspace := calls.foldl call w

theorem Origin.sound {w : Workspace} (h : w.Origin) : w.Sound := by
  cases h with
  | empty => exact sound_empty
  | read h => exact (Document.sound_of_read h).1

/-- A call keeps a canvas sound. -/
theorem Sound.call {w : Workspace} (hw : w.Sound) (c : Call) : (w.call c).Sound := by
  cases c with
  | add b ordered position => exact hw.add ordered position
  | move id placement => exact hw.move id placement
  | remove id => exact hw.remove id
  | setField id name value => exact hw.setField id name value
  | createVariable name => exact hw.createVariable name
  | renameVariable h name => exact hw.renameVariable h name
  | deleteVariable h => exact hw.deleteVariable h
  | migrate => exact hw.migrate
  | mint => exact hw.mint

/-- Calls keep a canvas sound. -/
theorem Sound.callAll {w : Workspace} (hw : w.Sound) (calls : List Call) :
    (w.callAll calls).Sound := by
  induction calls generalizing w with
  | nil => exact hw
  | cons c calls ih => exact ih (hw.call c)

/-- **Whatever is done to a canvas**, its blocks have distinct identities, its variables have
distinct handles, and no block of a variable kind gives its variable by name. -/
theorem distinct_of_callAll {w : Workspace} (hw : w.Origin) (calls : List Call) :
    ((w.callAll calls).walk.map Block.id).Nodup ∧
    ((w.callAll calls).registry.vars.map Variable.handle).Nodup ∧
    ∀ b ∈ (w.callAll calls).walk, b.kind.hasVariable → b.node.text? variableField = none := by
  have hs := hw.sound.callAll calls
  refine ⟨?_, hs.handles, ?_⟩
  · have hids := hs.ids
    rw [← map_node_walk, List.map_map] at hids
    exact hids
  · intro b hb
    refine hs.bound b.node ?_
    rw [← map_node_walk]
    exact List.mem_map_of_mem hb

/-- A block that gives its variable by name is read, gets another variable by name, and is
followed by a second one. -/
theorem distinct_of_callAll_read :
    ∃ w, Document.read
        "<xml><block type=\"variables_get\"><field name=\"VAR\">x</field></block></xml>" = .ok w ∧
      let v := w.callAll [.setField ⟨"doc_block_1"⟩ "VAR" (.text "y"), .mint,
        .add (.leaf ⟨"block_1"⟩ .print .empty) ⟨Fields.sorted_empty, trivial⟩ none,
        .move ⟨"block_1"⟩ (.slot ⟨"doc_block_1"⟩ .next), .migrate]
      (v.walk.map Block.id).Nodup ∧ (v.registry.vars.map Variable.handle).Nodup ∧
        ∀ b ∈ v.walk, b.kind.hasVariable → b.node.text? variableField = none := by
  obtain ⟨w, hw⟩ : ∃ w, Document.read
      "<xml><block type=\"variables_get\"><field name=\"VAR\">x</field></block></xml>" = .ok w :=
    ⟨_, rfl⟩
  exact ⟨w, hw, distinct_of_callAll (.read hw) _⟩

end Workspace

end BlockProgram
