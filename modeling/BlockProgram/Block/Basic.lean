import BlockProgram.Block.Kind
import BlockProgram.Block.Fields

/-!
# Blocks

A block carries an identity, a kind and settings, and other blocks hang on it by
slots: value inputs by name, statement inputs by name, and at most one block that
comes next. The children of a block are listed in the order of their slots (inputs,
statements, next; within the first two by name), each slot once. The list of children
and the trees below it are one inductive type, read as a forest: a first tree, with
its own children, and the trees after it.

The block in a statement input and the block at the top level are heads of chains,
which run on from each block to its next.
-/

namespace BlockProgram

/-- What tells a block from all others. -/
structure BlockId where
  /-- The text of the identity. -/
  text : String
  deriving DecidableEq, Repr

/-- Where a block hangs on another. -/
inductive Slot where
  /-- A value input. -/
  | input (name : String)
  /-- A statement input, which holds the head of a body. -/
  | statement (name : String)
  /-- The place of the following block of a chain. -/
  | next
  deriving DecidableEq, Repr

/-- The order of slots: inputs, statements, next; by name within the first two. -/
def Slot.before : Slot → Slot → Bool
  | .input a, .input b => a < b
  | .input _, _ => true
  | .statement _, .input _ => false
  | .statement a, .statement b => a < b
  | .statement _, .next => true
  | .next, _ => false

/-- A block apart from what hangs on it. -/
structure Node where
  /-- Its identity. -/
  id : BlockId
  /-- What it does. -/
  kind : Kind
  /-- Its settings. -/
  fields : Fields
  deriving DecidableEq, Repr

/-- The blocks that hang on a block, with their slots. -/
inductive Children where
  /-- None. -/
  | nil
  /-- A block in a slot, with its own children, and the blocks after it. -/
  | cons (slot : Slot) (node : Node) (below rest : Children)
  deriving DecidableEq, Repr

/-- A block with all that hangs on it. -/
structure Block where
  /-- The block itself. -/
  node : Node
  /-- What hangs on it. -/
  children : Children
  deriving DecidableEq, Repr

namespace Children

/-- The slots at the top of the forest. -/
def slots : Children → List Slot
  | nil => []
  | cons s _ _ rest => s :: rest.slots

/-- In the whole forest slots are in increasing order and settings in increasing order
of names. -/
def Ordered : Children → Prop
  | nil => True
  | cons s n below rest =>
    (∀ t ∈ rest.slots, s.before t) ∧ n.fields.Sorted ∧ below.Ordered ∧ rest.Ordered

/-- The block in a slot. -/
def get? (slot : Slot) : Children → Option Block
  | nil => none
  | cons s n below rest => if s = slot then some ⟨n, below⟩ else rest.get? slot

/-- A block put into a slot, in place of the block that was there. -/
def insert (slot : Slot) (b : Block) : Children → Children
  | nil => cons slot b.node b.children nil
  | cons s n below rest =>
    if slot.before s then cons slot b.node b.children (cons s n below rest)
    else if slot = s then cons slot b.node b.children rest
    else cons s n below (rest.insert slot b)

/-- A slot emptied. -/
def erase (slot : Slot) : Children → Children
  | nil => nil
  | cons s n below rest => if s = slot then rest else cons s n below (rest.erase slot)

@[simp] theorem get?_nil (slot : Slot) : nil.get? slot = none := rfl

/-- A block that was put into a slot is there. -/
@[simp] theorem get?_insert_self (slot : Slot) (b : Block) (cs : Children) :
    (cs.insert slot b).get? slot = some b := by
  induction cs with
  | nil => simp [insert, get?]
  | cons s n below rest _ ih =>
    rw [insert]
    split
    · simp [get?]
    · split
      · simp [get?]
      · rename_i h
        simp [get?, Ne.symm h, ih]

/-- Filling one slot leaves the others as they were. -/
theorem get?_insert_of_ne {slot other : Slot} (b : Block) (cs : Children) (h : other ≠ slot) :
    (cs.insert slot b).get? other = cs.get? other := by
  induction cs with
  | nil => simp [insert, get?, Ne.symm h]
  | cons s n below rest _ ih =>
    rw [insert]
    split
    · simp [get?, Ne.symm h]
    · split
      · rename_i he
        subst he
        simp [get?, Ne.symm h]
      · simp only [get?, ih]

end Children

namespace Block

/-- A block on which nothing hangs. -/
def leaf (id : BlockId) (kind : Kind) (fields : Fields) : Block := ⟨⟨id, kind, fields⟩, .nil⟩

/-- The identity of a block. -/
def id (b : Block) : BlockId := b.node.id

/-- What a block does. -/
def kind (b : Block) : Kind := b.node.kind

/-- Slots and settings are in increasing order in the whole tree. -/
def Ordered (b : Block) : Prop := b.node.fields.Sorted ∧ b.children.Ordered

/-- The block in a value input. -/
def input? (b : Block) (name : String) : Option Block := b.children.get? (.input name)

/-- The head of the body in a statement input. -/
def statement? (b : Block) (name : String) : Option Block := b.children.get? (.statement name)

/-- The block that comes next in the chain. -/
def next? (b : Block) : Option Block := b.children.get? .next

/-- The block without the chain below it. -/
def alone (b : Block) : Block := { b with children := b.children.erase .next }

/-- The block with another put into one of its slots. -/
def plug (b : Block) (slot : Slot) (child : Block) : Block :=
  { b with children := b.children.insert slot child }

/-- The block with one of its settings given a value. -/
def setField (b : Block) (name : String) (value : Field) : Block :=
  { b with node := { b.node with fields := b.node.fields.insert name value } }

end Block

/-- The text of a setting that holds one. -/
def Node.text? (n : Node) (name : String) : Option String :=
  (n.fields.get? name).bind Field.text?

/-- The variable of a setting that holds one. -/
def Node.handle? (n : Node) (name : String) : Option Handle :=
  (n.fields.get? name).bind Field.handle?

end BlockProgram
