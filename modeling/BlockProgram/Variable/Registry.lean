import BlockProgram.Identifier
import BlockProgram.Fresh
import BlockProgram.Block.Traversal

/-!
# The registry of variables

Variables are known by handles, and the registry says what each is called in the
program. A variable that is admitted by name is called by the identifier made of that
name, and a name that is already held is not admitted again. A variable that a document
declares keeps the name given there until the registry is migrated.
-/

namespace BlockProgram

/-- One variable. -/
structure Variable where
  /-- What it is known by. -/
  handle : Handle
  /-- The name as it was last given. -/
  declared : String
  /-- The name it goes by. -/
  resolved : String
  deriving DecidableEq, Repr

/-- The variables of a program. -/
structure Registry where
  /-- The variables in the order in which they were admitted. -/
  vars : List Variable
  /-- The number of the last handle that was made up. -/
  minted : Nat
  deriving DecidableEq, Repr

namespace Registry

/-- No variables. -/
def empty : Registry := ⟨[], 0⟩

/-- The variable with a handle. -/
def get? (r : Registry) (h : Handle) : Option Variable := r.vars.find? (·.handle = h)

/-- Whether a handle is declared. -/
def declares (r : Registry) (h : Handle) : Bool := (r.get? h).isSome

/-- The first variable that goes by a name. -/
def named? (r : Registry) (name : String) : Option Variable :=
  r.vars.find? (·.resolved = name)

/-- The place of a handle in the registry. -/
def position? (r : Registry) (h : Handle) : Option Nat :=
  r.vars.findIdx? (·.handle = h)

/-- The identifier of a declared variable. -/
def lookup (r : Registry) (h : Option Handle) : Option String := do
  let h ← h
  let index ← r.position? h
  let v ← r.vars[index]?
  some (Identifier.sanitize (some v.resolved) index)

/-- The identifier that stands for a variable that is not declared. -/
def unknownName : String := "var1"

/-- The identifier of a variable. -/
def resolve (r : Registry) (h : Option Handle) : String := (r.lookup h).getD unknownName

/-! ### Admitting variables -/

/-- A handle that is not declared, and the registry that has given it out. -/
def mint (r : Registry) : Handle × Registry :=
  let n := Fresh.next "var_" (fun s => r.declares ⟨s⟩) r.vars.length r.minted
  (⟨Fresh.name "var_" n⟩, { r with minted := n })

/-- The registry with a variable added at its end. -/
def push (r : Registry) (v : Variable) : Registry := { r with vars := r.vars ++ [v] }

/-- Admits a variable by name: its identifier is made of the name, and if that is
already held its holder is meant. -/
def register (r : Registry) (name : String) : Handle × Registry :=
  let resolved := Identifier.sanitize (some name) r.vars.length
  match r.named? resolved with
  | some holder => (holder.handle, r)
  | none =>
    let (handle, r) := r.mint
    (handle, r.push ⟨handle, name, resolved⟩)

/-- The variable that a name refers to: the one that goes by it, or a new one. -/
def bind (r : Registry) (name : String) : Handle × Registry :=
  match r.named? name with
  | some holder => (holder.handle, r)
  | none => r.register name

/-- Adds a variable with the handle and the name that a document gives it, unless the
handle is taken. -/
def declare (r : Registry) (h : Handle) (name : String) : Registry :=
  if r.declares h then r else r.push ⟨h, name, name⟩

/-! ### Renaming and removing -/

/-- Another variable that goes by a name. -/
def holder? (r : Registry) (h : Handle) (name : String) : Option Variable :=
  r.vars.find? fun v => v.resolved = name && v.handle ≠ h

/-- Renames a declared variable and tells which one goes by the new name afterwards. If
another one already does, it is that one and nothing changes. -/
def rename (r : Registry) (h : Handle) (name : String) : Option (Handle × Registry) := do
  let index ← r.position? h
  let resolved := Identifier.sanitize (some name) index
  match r.holder? h resolved with
  | some other => some (other.handle, r)
  | none =>
    let renamed := r.vars.modify index fun v => { v with declared := name, resolved := resolved }
    some (h, { r with vars := renamed })

/-- The registry without a variable. -/
def remove (r : Registry) (h : Handle) : Registry :=
  { r with vars := r.vars.eraseP (·.handle = h) }

@[simp] theorem get?_empty (h : Handle) : empty.get? h = none := rfl

@[simp] theorem vars_push (r : Registry) (v : Variable) :
    (r.push v).vars = r.vars ++ [v] := rfl

@[simp] theorem vars_mint (r : Registry) : r.mint.2.vars = r.vars := rfl

end Registry

end BlockProgram
