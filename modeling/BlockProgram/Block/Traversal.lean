import BlockProgram.Block.Basic

/-!
# Going through a tree of blocks

Every walk goes through a tree in the same order: a block, then what hangs on it, slot
by slot. Looking a block up finds the first with its identity in that order, and a
change that is made at a block is made at that first one.
-/

namespace BlockProgram

/-! ### Visiting -/

/-- The blocks of a forest in visiting order, each with all that hangs on it. -/
def Children.walk : Children → List Block
  | .nil => []
  | .cons _ n below rest => ⟨n, below⟩ :: (below.walk ++ rest.walk)

/-- The blocks of a tree in visiting order. -/
def Block.walk (b : Block) : List Block := b :: b.children.walk

/-- The identities in a tree in visiting order. -/
def Block.ids (b : Block) : List BlockId := b.walk.map Block.id

/-- A forest with every block changed, what hangs on it aside. -/
def Children.map (f : Node → Node) : Children → Children
  | .nil => .nil
  | .cons s n below rest => .cons s (f n) (below.map f) (rest.map f)

/-- A tree with every block changed, what hangs on it aside. -/
def Block.map (f : Node → Node) (b : Block) : Block := ⟨f b.node, b.children.map f⟩

/-- A forest with every block changed in visiting order, by a rule that goes through
states on the way. -/
def Children.mapState {σ : Type} (f : Node → σ → Node × σ) : Children → σ → Children × σ
  | .nil, state => (.nil, state)
  | .cons s n below rest, state =>
    let (n, state) := f n state
    let (below, state) := below.mapState f state
    let (rest, state) := rest.mapState f state
    (.cons s n below rest, state)

/-- A tree with every block changed in visiting order, by a rule that goes through
states on the way. -/
def Block.mapState {σ : Type} (f : Node → σ → Node × σ) (b : Block) (state : σ) : Block × σ :=
  let (n, state) := f b.node state
  let (children, state) := b.children.mapState f state
  (⟨n, children⟩, state)

/-! ### Looking up -/

/-- The first block of a forest with an identity. -/
def Children.find? (id : BlockId) : Children → Option Block
  | .nil => none
  | .cons _ n below rest =>
    if n.id = id then some ⟨n, below⟩ else (below.find? id).or (rest.find? id)

/-- The first block of a tree with an identity. -/
def Block.find? (b : Block) (id : BlockId) : Option Block :=
  if b.id = id then some b else b.children.find? id

/-- Whether a tree holds a block with an identity. -/
def Block.contains (b : Block) (id : BlockId) : Bool := (b.find? id).isSome

/-- Looking up finds the first block in visiting order. -/
theorem Children.find?_eq_walk (id : BlockId) (cs : Children) :
    cs.find? id = cs.walk.find? (fun b => decide (b.id = id)) := by
  induction cs with
  | nil => rfl
  | cons s n below rest ihb ihr =>
    by_cases h : n.id = id
    · simp [find?, walk, Block.id, h]
    · simp only [find?, walk, h, if_false, List.find?_cons, Block.id, decide_false,
        List.find?_append, ihb, ihr]

/-- Looking up finds the first block in visiting order. -/
theorem Block.find?_eq_walk (b : Block) (id : BlockId) :
    b.find? id = b.walk.find? (fun b => decide (b.id = id)) := by
  by_cases h : b.id = id
  · simp [find?, walk, h]
  · simp [find?, walk, h, Children.find?_eq_walk]

/-! ### Changing one block -/

/-- A forest with the first block of an identity changed, if there is one. -/
def Children.update? (id : BlockId) (f : Block → Block) : Children → Option Children
  | .nil => none
  | .cons s n below rest =>
    if n.id = id then
      let b := f ⟨n, below⟩
      some (.cons s b.node b.children rest)
    else
      match below.update? id f with
      | some below => some (.cons s n below rest)
      | none => (rest.update? id f).map (.cons s n below ·)

/-- A tree with the first block of an identity changed, if there is one. -/
def Block.update? (id : BlockId) (f : Block → Block) (b : Block) : Option Block :=
  if b.id = id then some (f b) else (b.children.update? id f).map (⟨b.node, ·⟩)

/-! ### Chains -/

/-- The last block of the chain that goes on from a forest by its slot for the next
block. -/
def Children.last? : Children → Option Block
  | .nil => none
  | .cons s n below rest =>
    if s = .next then some (below.last?.getD ⟨n, below⟩) else rest.last?

/-- The last block of a chain. -/
def Block.last (b : Block) : Block := b.children.last?.getD b

/-- A forest with a block put at the end of the chain that goes on from it. -/
def Children.follow (after : Block) : Children → Children
  | .nil => .cons .next after.node after.children .nil
  | .cons s n below rest =>
    if s = .next then .cons s n (below.follow after) rest else .cons s n below (rest.follow after)

/-- A chain with another one put at its end. -/
def Block.follow (b after : Block) : Block := ⟨b.node, b.children.follow after⟩

/-! ### Variables -/

/-- Whether a setting of the block itself holds a variable. -/
def Block.mentions (b : Block) (h : Handle) : Bool := b.node.fields.mentions h

/-- A block with one variable put in the place of another in all its settings. -/
def Node.redirect (source target : Handle) (n : Node) : Node :=
  { n with fields := n.fields.mapValues (Field.redirect source target) }

/-- A tree with one variable put in the place of another everywhere. -/
def Block.redirect (source target : Handle) (b : Block) : Block :=
  b.map (Node.redirect source target)

end BlockProgram
