import BlockProgram.Block.Traversal
import BlockProgram.Number.Double
import BlockProgram.Variable.Migration

/-!
# Workspaces

A workspace is the canvas of one program: chains of blocks in the order in which they
were put there, most of them at a position, and the variables that they use.
-/

namespace BlockProgram

/-- A point of the canvas. -/
structure Position where
  /-- To the right. -/
  x : Double
  /-- Downwards. -/
  y : Double
  deriving DecidableEq, Repr

/-- A chain on the canvas. -/
structure TopBlock where
  /-- The head of the chain. -/
  block : Block
  /-- Where it is, if it has a place. -/
  position : Option Position
  deriving DecidableEq, Repr

/-- The canvas of a program. -/
structure Workspace where
  /-- The chains in the order of their arrival. -/
  top : List TopBlock
  /-- The variables. -/
  registry : Registry
  /-- The number of the last block identity that was made up. -/
  minted : Nat
  deriving DecidableEq, Repr

namespace Workspace

/-- A canvas with nothing on it. -/
def empty : Workspace := ⟨[], .empty, 0⟩

/-- A canvas with given chains and variables. -/
def ofParts (top : List TopBlock) (registry : Registry) : Workspace := ⟨top, registry, 0⟩

/-- All blocks in visiting order, chain by chain. -/
def walk (w : Workspace) : List Block := w.top.flatMap fun t => t.block.walk

/-- The first block with an identity. -/
def find? (w : Workspace) (id : BlockId) : Option Block :=
  w.top.findSome? fun t => t.block.find? id

/-- How many blocks there are. -/
def blockCount (w : Workspace) : Nat := w.walk.length

/-- Whether there are no chains. -/
def isEmpty (w : Workspace) : Bool := w.top.isEmpty

/-- Slots and settings are in increasing order in every chain. -/
def Ordered (w : Workspace) : Prop := ∀ t ∈ w.top, t.block.Ordered

/-- A block identity that is not on the canvas, and the canvas that has given it out. -/
def mint (w : Workspace) : BlockId × Workspace :=
  let n := Fresh.next "block_" (fun s => (w.find? ⟨s⟩).isSome) w.blockCount w.minted
  (⟨Fresh.name "block_" n⟩, { w with minted := n })

/-- Every chain changed, where it is aside. -/
def mapBlocks (f : Block → Block) (w : Workspace) : Workspace :=
  { w with top := w.top.map fun t => { t with block := f t.block } }

/-- Migrates the names of the variables to identifiers, and counts those replaced. -/
def migrate (w : Workspace) : Nat × Workspace :=
  let m := w.registry.migrate (w.top.map TopBlock.block)
  let top := (w.top.zip m.blocks).map fun (t, b) => { t with block := b }
  (m.replaced, { w with top := top, registry := m.registry })

end Workspace

end BlockProgram
