import BlockProgram.Variable.Registry

/-!
# Migrating names to identifiers

A registry read from a document may hold names that are no identifiers, and one name
twice. Migration goes through the variables that were there at the start. One that goes
by an identifier of its own is left alone. Any other is replaced, by the variable that
already goes by the identifier made of its name, or else by a new one; whatever referred
to it now refers to its replacement.
-/

namespace BlockProgram

/-- What migration works on. -/
structure Migration where
  /-- The variables so far. -/
  registry : Registry
  /-- The blocks so far. -/
  blocks : List Block
  /-- How many variables have been replaced. -/
  replaced : Nat
  deriving DecidableEq, Repr

namespace Migration

/-- The variable that takes the place of one that has to go: the holder of its identifier
or a new variable. -/
def successor (r : Registry) (old : Variable) (name : String) : Handle × Registry :=
  match r.holder? old.handle name with
  | some other => (other.handle, r)
  | none =>
    let (handle, r) := r.mint
    (handle, r.push ⟨handle, old.declared, name⟩)

/-- Whether a variable may stay: it goes by its identifier and no other one does. -/
def stays (r : Registry) (old : Variable) (name : String) : Bool :=
  name = old.resolved && (r.holder? old.handle name).isNone

/-- The step for one variable, given its place at the start. -/
def step (m : Migration) (old : Variable) (index : Nat) : Migration :=
  let name := Identifier.sanitize (some old.resolved) index
  if stays m.registry old name then m
  else
    let (handle, registry) := successor m.registry old name
    { registry := registry.remove old.handle
      blocks := m.blocks.map (Block.redirect old.handle handle)
      replaced := m.replaced + 1 }

end Migration

/-- Migrates the names of a registry, with all blocks that refer to it. -/
def Registry.migrate (r : Registry) (blocks : List Block) : Migration :=
  r.vars.zipIdx.foldl (fun m (old, index) => m.step old index) ⟨r, blocks, 0⟩

end BlockProgram
