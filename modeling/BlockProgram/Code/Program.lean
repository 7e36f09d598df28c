import BlockProgram.Code.Statement
import BlockProgram.Workspace.Basic

/-!
# Programs

The text of a whole canvas: the texts of its chains one after the other, in the order in
which they came or in the order in which they are seen.
-/

namespace BlockProgram

/-- In which order chains are written. -/
inductive Order where
  /-- As they came. -/
  | insertion
  /-- From top to bottom, then from left to right. -/
  | visual
  deriving DecidableEq, Repr

/-- Whether one place is seen no later than another: from top to bottom, then from left to
right, then by identity. -/
def Position.visualLE (p : Position) (a : BlockId) (q : Position) (b : BlockId) : Bool :=
  if p.y.rank ≠ q.y.rank then p.y.rank < q.y.rank
  else if p.x.rank ≠ q.x.rank then p.x.rank < q.x.rank
  else a.text ≤ b.text

/-- Whether one chain is seen no later than another; chains without a place come last. -/
def TopBlock.visualLE (a b : TopBlock) : Bool :=
  match a.position, b.position with
  | some p, some q => p.visualLE a.block.id q b.block.id
  | some _, none => true
  | none, some _ => false
  | none, none => true

namespace Program

/-- What is written when there are no chains. -/
def emptyText : String := "# No code generated\n"

/-- The chains in the order in which they are written; those that are not told apart keep
their order. -/
def arrange (order : Order) (top : List TopBlock) : List TopBlock :=
  match order with
  | .insertion => top
  | .visual => top.mergeSort TopBlock.visualLE

/-- The text of chains. -/
def text (order : Order) (r : Registry) (top : List TopBlock) : String :=
  if top.isEmpty then emptyText
  else String.join ((arrange order top).map fun t => t.block.render r 0)

end Program

/-- The text of a canvas. -/
def Workspace.program (order : Order) (w : Workspace) : String :=
  Program.text order w.registry w.top

end BlockProgram
