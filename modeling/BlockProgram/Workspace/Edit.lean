import BlockProgram.Block.Detach
import BlockProgram.Workspace.Basic

/-!
# Editing a workspace

The changes that can be made to a canvas. Each gives back the canvas after it, also when
it is refused, together with its answer or the reason of the refusal.
-/

namespace BlockProgram

/-- Why a change is refused. -/
inductive EditError where
  /-- There is no such block. -/
  | unknownBlock (id : BlockId)
  /-- There is no such variable. -/
  | unknownVariable (handle : Handle)
  /-- A block cannot be put below itself. -/
  | cyclicAttachment (moved target : BlockId)
  /-- There is such a block already. -/
  | duplicateBlock (id : BlockId)
  deriving DecidableEq, Repr

/-- The reason of a refusal in words. -/
def EditError.message : EditError → String
  | unknownBlock id => "no block with id '" ++ id.text ++ "'"
  | unknownVariable h => "no variable with id '" ++ h.text ++ "'"
  | cyclicAttachment moved target =>
    "cannot attach block '" ++ moved.text ++ "' inside its own subtree at '" ++ target.text ++ "'"
  | duplicateBlock id => "a block with id '" ++ id.text ++ "' already exists"

/-- Where a moved chain goes. -/
inductive Placement where
  /-- To a point of the canvas. -/
  | canvas (position : Position)
  /-- Into a slot of another block. -/
  | slot (target : BlockId) (slot : Slot)
  deriving DecidableEq, Repr

/-- The answer to a change, or the reason why it is refused, and the canvas after it. -/
abbrev Edited (α : Type) := Except EditError α × Workspace

namespace Workspace

/-! ### Adding -/

/-- The first identity that comes up twice, or that is taken. -/
def firstRepeated? (taken : BlockId → Bool) : (seen ids : List BlockId) → Option BlockId
  | _, [] => none
  | seen, id :: ids =>
    if seen.contains id || taken id then some id else firstRepeated? taken (id :: seen) ids

/-- A block whose variable is given by name gets the variable of that name. -/
def bindNode (n : Node) (r : Registry) : Node × Registry :=
  if n.kind.hasVariable then
    match n.fields.get? variableField with
    | some (.text name) =>
      let (handle, r) := r.bind name
      ({ n with fields := n.fields.insert variableField (.var handle) }, r)
    | _ => (n, r)
  else (n, r)

/-- Puts a new chain on the canvas. All its identities must be new, and its variables given
by name are bound. -/
def add (w : Workspace) (b : Block) (position : Option Position) : Edited Unit :=
  match firstRepeated? (fun id => (w.find? id).isSome) [] b.ids with
  | some id => (.error (.duplicateBlock id), w)
  | none =>
    let (b, r) := b.mapState bindNode w.registry
    (.ok (), { w with top := w.top ++ [⟨b, position⟩], registry := r })

/-! ### Taking off -/

/-- The first chain that a block heads is taken off the canvas. If the block goes alone the
chain below it takes its place. -/
def takeHead? (extent : Extent) (id : BlockId) : List TopBlock → Option (Block × List TopBlock)
  | [] => none
  | t :: ts =>
    if t.block.id = id then
      match extent, t.block.next? with
      | .alone, some rest => some (t.block.alone, ⟨rest, t.position⟩ :: ts)
      | .alone, none => some (t.block.alone, ts)
      | .withChain, _ => some (t.block, ts)
    else (takeHead? extent id ts).map fun (b, ts) => (b, t :: ts)

/-- A block is taken off the first chain that holds it below its head. -/
def takeInside? (extent : Extent) (id : BlockId) : List TopBlock → Option (Block × List TopBlock)
  | [] => none
  | t :: ts =>
    match t.block.take? extent id with
    | some (taken, left) => some (taken, { t with block := left } :: ts)
    | none => (takeInside? extent id ts).map fun (b, ts) => (b, t :: ts)

/-- A block is taken off: the heads of chains are tried first. -/
def take? (extent : Extent) (id : BlockId) (top : List TopBlock) :
    Option (Block × List TopBlock) :=
  (takeHead? extent id top).or (takeInside? extent id top)

/-- Deletes a block with what is plugged into it; the chain below it moves up. -/
def remove (w : Workspace) (id : BlockId) : Edited Block :=
  match take? .alone id w.top with
  | some (b, top) => (.ok b, { w with top := top })
  | none => (.error (.unknownBlock id), w)

/-! ### Moving -/

/-- The first block with an identity is changed, if there is one. -/
def updateTop? (id : BlockId) (f : Block → Block) : List TopBlock → Option (List TopBlock)
  | [] => none
  | t :: ts =>
    match t.block.update? id f with
    | some b => some ({ t with block := b } :: ts)
    | none => (updateTop? id f ts).map (t :: ·)

/-- A block with a chain put into one of its slots. In a chain or a body, what was there goes
on below the chain that is put in. -/
def plugChain (slot : Slot) (chain target : Block) : Block :=
  match slot with
  | .input _ => target.plug slot chain
  | _ =>
    match target.children.get? slot with
    | some displaced => target.plug slot (chain.follow displaced)
    | none => target.plug slot chain

/-- What has to leave the slot into which a chain is put: the block in a value input. -/
def bumped? (slot : Slot) (target : Block) : Option Block :=
  match slot with
  | .input _ => target.children.get? slot
  | _ => none

/-- Puts a chain that has been taken off into a slot. A block that has to leave goes to the end
of the canvas, without a place. If the target is gone, the chain goes there instead, with
the place it had. -/
def attach (w : Workspace) (chain : Block) (previous : Option Position) (target : BlockId)
    (slot : Slot) : Edited Unit :=
  match w.find? target, updateTop? target (plugChain slot chain) w.top with
  | some block, some top =>
    let bumped := (bumped? slot block).toList.map (⟨·, none⟩)
    (.ok (), { w with top := top ++ bumped })
  | _, _ => (.error (.unknownBlock target), { w with top := w.top ++ [⟨chain, previous⟩] })

/-- The place of the first chain that a block heads. -/
def positionOf (w : Workspace) (id : BlockId) : Option Position :=
  (w.top.find? (·.block.id = id)).bind TopBlock.position

/-- Why a move is refused before anything is touched. -/
def moveFault? (w : Workspace) (moving : Block) : Placement → Option EditError
  | .canvas _ => none
  | .slot target _ =>
    if moving.contains target then some (.cyclicAttachment moving.id target)
    else if (w.find? target).isNone then some (.unknownBlock target)
    else none

/-- Moves a block, with the chain below it. -/
def move (w : Workspace) (id : BlockId) (placement : Placement) : Edited Unit :=
  match w.find? id with
  | none => (.error (.unknownBlock id), w)
  | some moving =>
    match moveFault? w moving placement with
    | some fault => (.error fault, w)
    | none =>
      match take? .withChain id w.top with
      | none => (.error (.unknownBlock id), w)
      | some (chain, top) =>
        match placement with
        | .canvas position => (.ok (), { w with top := top ++ [⟨chain, some position⟩] })
        | .slot target slot => { w with top := top }.attach chain (w.positionOf id) target slot

/-! ### Settings -/

/-- Gives a setting of a block a value. A variable that is given by name is bound. -/
def setField (w : Workspace) (id : BlockId) (name : String) (value : Field) : Edited Unit :=
  match w.find? id with
  | none => (.error (.unknownBlock id), w)
  | some block =>
    let (value, registry) :=
      match value with
      | .text s =>
        if block.kind.hasVariable && name = variableField then
          let (handle, r) := w.registry.bind s
          (Field.var handle, r)
        else (value, w.registry)
      | .var _ => (value, w.registry)
    let top := (updateTop? id (Block.setField · name value) w.top).getD w.top
    (.ok (), { w with top := top, registry := registry })

/-! ### Variables -/

/-- Creates a variable, or finds the one that holds its name. -/
def createVariable (w : Workspace) (name : String) : Handle × Workspace :=
  let (handle, r) := w.registry.register name
  (handle, { w with registry := r })

/-- Renames a variable. If another one holds the new name, the two become one. -/
def renameVariable (w : Workspace) (h : Handle) (name : String) : Edited Handle :=
  match w.registry.rename h name with
  | none => (.error (.unknownVariable h), w)
  | some (holder, r) =>
    if holder = h then (.ok holder, { w with registry := r })
    else (.ok holder, { w.mapBlocks (Block.redirect h holder) with registry := r.remove h })

/-- The first block that refers to a variable. -/
def firstUser? (h : Handle) (top : List TopBlock) : Option BlockId :=
  (top.findSome? fun t => t.block.walk.find? (·.mentions h)).map Block.id

/-- Deletes blocks that refer to a variable, one after the other, at most a given number. -/
def removeUsers (h : Handle) : Nat → List TopBlock → Except EditError Unit × List TopBlock
  | 0, top => (.ok (), top)
  | n + 1, top =>
    match firstUser? h top with
    | none => (.ok (), top)
    | some id =>
      match take? .alone id top with
      | some (_, top) => removeUsers h n top
      | none => (.error (.unknownBlock id), top)

/-- Deletes a variable and every block that refers to it. -/
def deleteVariable (w : Workspace) (h : Handle) : Edited Unit :=
  if w.registry.declares h then
    match removeUsers h w.blockCount w.top with
    | (.ok (), top) => (.ok (), { w with top := top, registry := w.registry.remove h })
    | (.error e, top) => (.error e, { w with top := top })
  else (.error (.unknownVariable h), w)

end Workspace

end BlockProgram
