import BlockProgram.Block.Traversal

/-!
# Taking a block off a tree

A block is taken off with the chain below it, or alone, in which case the chain below
it moves up into the slot it leaves. The blocks that hang directly on the root are
tried first, in the order of their slots, then those further down.
-/

namespace BlockProgram

/-- How much is taken off. -/
inductive Extent where
  /-- The block and what is plugged into it; the chain below moves up. -/
  | alone
  /-- The block with the chain below it. -/
  | withChain
  deriving DecidableEq, Repr

namespace Children

/-- What becomes of a slot when the block in it is taken off: it is left to the next
block of the chain, or it is emptied. -/
def vacate (extent : Extent) (slot : Slot) (below rest : Children) : Children :=
  match extent with
  | .withChain => rest
  | .alone =>
    match below.get? .next with
    | some b => cons slot b.node b.children rest
    | none => rest

/-- The part of a block that is taken off. -/
def taken (extent : Extent) (n : Node) (below : Children) : Block :=
  match extent with
  | .withChain => ⟨n, below⟩
  | .alone => ⟨n, below.erase .next⟩

/-- The first block at the top of the forest with an identity, and the forest without
it. -/
def takeTop? (extent : Extent) (id : BlockId) : Children → Option (Block × Children)
  | nil => none
  | cons s n below rest =>
    if n.id = id then some (taken extent n below, vacate extent s below rest)
    else (rest.takeTop? extent id).map fun (b, rest) => (b, cons s n below rest)

/-- The first block below the top of the forest with an identity, and the forest without
it. -/
def takeBelow? (extent : Extent) (id : BlockId) : Children → Option (Block × Children)
  | nil => none
  | cons s n below rest =>
    match (below.takeTop? extent id).or (below.takeBelow? extent id) with
    | some (b, below) => some (b, cons s n below rest)
    | none => (rest.takeBelow? extent id).map fun (b, rest) => (b, cons s n below rest)

end Children

/-- The block with an identity taken off a tree, whose root stays, and what is left. -/
def Block.take? (extent : Extent) (id : BlockId) (b : Block) : Option (Block × Block) :=
  ((b.children.takeTop? extent id).or (b.children.takeBelow? extent id)).map
    fun (taken, children) => (taken, { b with children := children })

end BlockProgram
