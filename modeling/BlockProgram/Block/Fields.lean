/-!
# Fields

The settings of one block, listed by name in increasing order, each name once. A
field holds a text or the handle of a variable.
-/

namespace BlockProgram

/-- What a variable is known by, whatever its name. -/
structure Handle where
  /-- The text of the handle. -/
  text : String
  deriving DecidableEq, Repr

/-- The value of one setting. -/
inductive Field where
  /-- A text. -/
  | text (s : String)
  /-- A variable. -/
  | var (handle : Handle)
  deriving DecidableEq, Repr

/-- The text of a field that holds one. -/
def Field.text? : Field → Option String
  | .text s => some s
  | .var _ => none

/-- The handle of a field that holds one. -/
def Field.handle? : Field → Option Handle
  | .text _ => none
  | .var h => some h

/-- A field with one handle put in the place of another. -/
def Field.redirect (source target : Handle) : Field → Field
  | .text s => .text s
  | .var h => .var (if h = source then target else h)

/-- The settings of a block, by name. -/
structure Fields where
  /-- The names and their values, in increasing order of names. -/
  entries : List (String × Field)
  deriving DecidableEq, Repr

namespace Fields

/-- No settings. -/
def empty : Fields := ⟨[]⟩

/-- The names are in increasing order, so that none is there twice. -/
def Sorted (f : Fields) : Prop := f.entries.Pairwise (fun a b => a.1 < b.1)

/-- The value of a setting. -/
def get? (f : Fields) (name : String) : Option Field := f.entries.lookup name

/-- A setting put in its place among the others; the value that was there is replaced. -/
def insertEntry (name : String) (value : Field) :
    List (String × Field) → List (String × Field)
  | [] => [(name, value)]
  | e :: es =>
    if name < e.1 then (name, value) :: e :: es
    else if name = e.1 then (name, value) :: es
    else e :: insertEntry name value es

/-- The settings with one of them given a value. -/
def insert (f : Fields) (name : String) (value : Field) : Fields :=
  ⟨insertEntry name value f.entries⟩

/-- The settings with every value changed. -/
def mapValues (g : Field → Field) (f : Fields) : Fields :=
  ⟨f.entries.map fun e => (e.1, g e.2)⟩

/-- Whether any setting holds a given variable. -/
def mentions (f : Fields) (h : Handle) : Bool := f.entries.any fun e => e.2 == .var h

@[simp] theorem get?_empty (name : String) : empty.get? name = none := rfl

theorem sorted_empty : empty.Sorted := List.Pairwise.nil

/-- A setting that was given a value has it. -/
@[simp] theorem get?_insert_self (f : Fields) (name : String) (value : Field) :
    (f.insert name value).get? name = some value := by
  obtain ⟨es⟩ := f
  simp only [insert, get?]
  induction es with
  | nil => simp [insertEntry]
  | cons e es ih =>
    obtain ⟨other, old⟩ := e
    rw [insertEntry]
    split
    · simp
    · split
      · simp
      · rename_i h
        rw [List.lookup_cons, beq_eq_false_iff_ne.mpr h]
        simpa using ih

/-- Giving one setting a value leaves the others as they were. -/
theorem get?_insert_of_ne {f : Fields} {name other : String} (value : Field)
    (h : other ≠ name) : (f.insert name value).get? other = f.get? other := by
  obtain ⟨es⟩ := f
  simp only [insert, get?]
  have hb : (other == name) = false := beq_eq_false_iff_ne.mpr h
  induction es with
  | nil => simp [insertEntry, List.lookup_cons, hb]
  | cons e es ih =>
    obtain ⟨third, old⟩ := e
    rw [insertEntry]
    split
    · simp [List.lookup_cons, hb]
    · split
      · rename_i he
        have he : name = third := he
        subst he
        simp [List.lookup_cons, hb]
      · rw [List.lookup_cons, List.lookup_cons, ih]

end Fields

end BlockProgram
