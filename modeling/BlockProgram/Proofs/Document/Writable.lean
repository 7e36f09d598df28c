import BlockProgram.Proofs.Document.Outline
import BlockProgram.Proofs.Number.Whole
import BlockProgram.Proofs.Workspace.Nodes
import BlockProgram.Proofs.Variable.Migration

/-!
# Canvases that can be written

A canvas can be written and read again if its blocks have distinct identities and kinds that a
tag names, if they refer to their variables by handle, if all its strings are texts that a
document may hold, and if its chains lie at whole coordinates. What is written of such a canvas
is markup that can be read.
-/

namespace BlockProgram

open Xml Document

/-- The string that a setting holds. -/
def Field.string : Field → String
  | .text s => s
  | .var h => h.text

/-- A block that can be written, apart from the blocks that hang on it. -/
structure Block.Writable (b : Block) : Prop where
  /-- Its kind is named by a tag. -/
  kind : ∃ tag, b.kind = .ofTag tag
  /-- If it is of a variable kind it does not give its variable by name. -/
  bound : b.kind.hasVariable → b.node.text? variableField = none
  /-- The tag is a text. -/
  tag : isText b.kind.tag
  /-- The identity is a text. -/
  id : isText b.id.text
  /-- The names of its settings and what they hold are texts. -/
  fields : ∀ e ∈ b.node.fields.entries, isText e.1 ∧ isText e.2.string
  /-- The names of its slots are texts. -/
  slots : ∀ slot ∈ b.children.slots, ∀ name ∈ slot.name?, isText name

/-- A canvas that can be written. -/
structure Workspace.Writable (w : Workspace) : Prop where
  /-- Settings and slots are in order, as those of any map by name are. -/
  ordered : w.Ordered
  /-- The registry has been built by the operations of registries. -/
  registry : w.registry.Built
  /-- The blocks have distinct identities. -/
  ids : (w.walk.map Block.id).Nodup
  /-- Every block can be written. -/
  blocks : ∀ b ∈ w.walk, b.Writable
  /-- The handles and the names of the variables are texts. -/
  names : ∀ v ∈ w.registry.vars, isText v.handle.text ∧ isText v.resolved
  /-- Chains that have a place lie at whole coordinates. -/
  positions : ∀ t ∈ w.top, ∀ p ∈ t.position, p.x.IsWhole ∧ p.y.IsWhole

/-! ### Attributes -/

/-- The names of the attributes that are written. -/
def Document.attributeNames : List String := ["type", "id", "x", "y", "name"]

/-- Attributes under these names can be read if their values are texts. -/
theorem Document.plain_of_texts {attributes : List (String × String)}
    (hkeys : ∀ a ∈ attributes, a.1 ∈ attributeNames) (hnodup : (attributes.map Prod.fst).Nodup)
    (hvalues : ∀ a ∈ attributes, isText a.2) : Plain attributes := by
  have hall : ∀ s ∈ attributeNames, isSimple s ∧ s ≠ declarator := by decide
  exact ⟨fun a ha => (hall a.1 (hkeys a ha)).1, fun a ha => (hall a.1 (hkeys a ha)).2, hvalues,
    hnodup⟩

theorem isChar_of_isDigit {c : Char} (h : c.isDigit) : isChar c := by
  have := Text.toNat_of_isDigit h
  simp only [isChar, Bool.or_eq_true, Bool.and_eq_true, beq_iff_eq, decide_eq_true_eq]
  omega

theorem isText_repr (n : Nat) : isText n.repr := by
  refine List.all_eq_true.mpr fun c hc => isChar_of_isDigit ?_
  rw [Nat.toList_repr] at hc
  exact Nat.isDigit_of_mem_toDigits (by decide) (by decide) hc

theorem isText_intRepr (z : Int) : isText z.repr := by
  rw [Int.repr_eq_if]
  split
  · exact isText_repr _
  · rw [isText_append, isText_repr]
    decide

theorem isText_millionthsText (n : Nat) : isText (Coordinate.millionthsText n) := by
  have hdigits : ∀ c ∈ ((Coordinate.sixDigits (n % 1000000)).reverse.dropWhile
      (· == '0')).reverse, isChar c := by
    intro c hc
    have hmem := (List.dropWhile_sublist _).subset (List.mem_reverse.mp hc)
    obtain ⟨place, -, rfl⟩ := List.mem_map.mp (List.mem_reverse.mp hmem)
    exact isChar_of_isDigit (by simp [Nat.isDigit_digitChar, Nat.mod_lt])
  rw [Coordinate.millionthsText, Nat.toString_eq_repr, isText_append, isText_repr, Bool.true_and]
  split
  · decide
  · rw [isText_append, Bool.and_eq_true]
    exact ⟨by decide, List.all_eq_true.mpr (by simpa only [String.toList_ofList] using hdigits)⟩

theorem isText_signText (negative : Bool) : isText (Coordinate.signText negative) := by
  cases negative <;> decide

/-- Any coordinate is written as a text that a document may hold. -/
theorem isText_coordinate (d : Double) : isText (Coordinate.text d) := by
  rw [Coordinate.text]
  split
  · decide
  · split
    · rw [isText_append, isText_signText]
      decide
    · split
      · exact isText_intRepr _
      · rw [isText_append, isText_signText, isText_millionthsText]
        rfl

/-! ### Settings -/

section Readable

variable {r : Registry} (hr : ∀ v ∈ r.vars, isText v.resolved)
include hr

theorem Field.isText_content {f : Field} (h : isText f.string) : isText (f.content r) := by
  cases f with
  | text s => exact h
  | var g =>
    rw [content]
    cases hv : r.get? g with
    | none => rfl
    | some v => exact hr v (Registry.mem_of_get? hv).1

theorem Field.readable {name : String} (hname : isText name) {f : Field} (h : isText f.string)
    {rest : Markup} (hrest : rest.Readable) : (f.markup r name rest).Readable := by
  have hplain : Plain (f.attributes name) := by
    cases f with
    | text s =>
      exact plain_of_texts (by simp [attributes, attributeNames]) (by simp [attributes])
        (by simpa [attributes] using hname)
    | var g =>
      exact plain_of_texts (by simp [attributes, attributeNames]) (by simp [attributes])
        (by simpa [attributes] using ⟨hname, h⟩)
  rw [markup_eq]
  split
  · exact ⟨rfl, hplain, trivial, hrest⟩
  · exact ⟨rfl, hplain, isText_content hr h, hrest⟩

theorem Fields.readable {f : Fields} (h : ∀ e ∈ f.entries, isText e.1 ∧ isText e.2.string)
    {rest : Markup} (hrest : rest.Readable) : (f.markup r rest).Readable := by
  obtain ⟨es⟩ := f
  simp only [markup]
  induction es with
  | nil => exact hrest
  | cons e es ih =>
    obtain ⟨he, hes⟩ := List.forall_mem_cons.mp h
    exact Field.readable hr he.1 he.2 (ih hes)

/-! ### Blocks -/

theorem Block.Writable.readable {b : Block} (h : b.Writable) {place : List (String × String)}
    (hplain : Plain (("type", b.kind.tag) :: ("id", b.id.text) :: place)) {slots rest : Markup}
    (hslots : slots.Readable) (hrest : rest.Readable) :
    (b.node.markup r place slots rest).Readable :=
  ⟨rfl, hplain, Fields.readable hr h.fields hslots, hrest⟩

omit hr in
theorem Block.Writable.plain {b : Block} (h : b.Writable) :
    Plain [("type", b.kind.tag), ("id", b.id.text)] :=
  plain_of_texts (by simp [attributeNames]) (by simp) (by simpa using ⟨h.tag, h.id⟩)

omit hr in
theorem Slot.plain {slot : Slot} (h : ∀ name ∈ slot.name?, isText name) :
    Plain slot.attributes := by
  cases slot with
  | input name =>
    exact plain_of_texts (by simp [attributes, attributeNames]) (by simp [attributes])
      (by simpa [attributes, name?] using h)
  | statement name =>
    exact plain_of_texts (by simp [attributes, attributeNames]) (by simp [attributes])
      (by simpa [attributes, name?] using h)
  | next =>
    exact plain_of_texts (by simp [attributes]) (by simp [attributes]) (by simp [attributes])

omit hr in
theorem Slot.isSimple_element (slot : Slot) : isSimple slot.element := by
  cases slot with
  | input name => exact (rfl : isSimple "value")
  | statement name => exact (rfl : isSimple "statement")
  | next => rfl

theorem Children.readable {cs : Children}
    (hslots : ∀ slot ∈ cs.slots, ∀ name ∈ slot.name?, isText name)
    (h : ∀ b ∈ cs.walk, b.Writable) : (cs.markup r).Readable := by
  induction cs with
  | nil => trivial
  | cons slot n below rest ihb ihr =>
    obtain ⟨hslot, hslots⟩ := List.forall_mem_cons.mp hslots
    obtain ⟨hn, h⟩ := List.forall_mem_cons.mp h
    obtain ⟨hbelow, hrest⟩ := List.forall_mem_append.mp h
    exact ⟨slot.isSimple_element, Slot.plain hslot,
      hn.readable hr hn.plain (ihb hn.slots hbelow) trivial, ihr hslots hrest⟩

theorem TopBlock.readable {t : TopBlock} (h : ∀ b ∈ t.block.walk, b.Writable) {rest : Markup}
    (hrest : rest.Readable) : (t.markup r rest).Readable := by
  obtain ⟨hb, hbelow⟩ := List.forall_mem_cons.mp h
  refine hb.readable hr ?_ (Children.readable hr hb.slots hbelow) hrest
  cases t.position with
  | none => exact hb.plain
  | some p =>
    exact plain_of_texts (by simp [Position.attributes, attributeNames])
      (by simp [Position.attributes]) (by
        simpa [Position.attributes] using
          ⟨hb.tag, hb.id, isText_coordinate p.x, isText_coordinate p.y⟩)

end Readable

/-! ### Variables -/

theorem Registry.readable {r : Registry}
    (hr : ∀ v ∈ r.vars, isText v.handle.text ∧ isText v.resolved) : r.markup.Readable := by
  rw [markup]
  generalize r.vars = vars at hr
  induction vars with
  | nil => trivial
  | cons v vs ih =>
    obtain ⟨hv, hvs⟩ := List.forall_mem_cons.mp hr
    exact ⟨rfl, plain_of_texts (by simp [attributeNames]) (by simp) (by simpa using hv.1), hv.2,
      ih hvs⟩

/-- **What is written of a canvas can be read**, wherever its chains are. -/
theorem Document.readable_markup {w : Workspace} (hblocks : ∀ b ∈ w.walk, b.Writable)
    (hnames : ∀ v ∈ w.registry.vars, isText v.handle.text ∧ isText v.resolved) :
    (Document.markup w).Readable := by
  have htop : (w.top.foldr (TopBlock.markup w.registry) .nil).Readable := by
    have hwalk : ∀ t ∈ w.top, ∀ b ∈ t.block.walk, b.Writable :=
      fun t ht b hb => hblocks b (List.mem_flatMap.mpr ⟨t, ht, hb⟩)
    generalize w.top = top at hwalk
    induction top with
    | nil => trivial
    | cons t ts ih =>
      obtain ⟨ht, hts⟩ := List.forall_mem_cons.mp hwalk
      exact TopBlock.readable (fun v hv => (hnames v hv).2) ht (ih hts)
  rw [Document.markup]
  split
  · exact htop
  · exact ⟨rfl, plain_of_texts (by simp) (by simp) (by simp), Registry.readable hnames, htop⟩

theorem Workspace.Writable.readable {w : Workspace} (hw : w.Writable) :
    (Document.markup w).Readable := Document.readable_markup hw.blocks hw.names

end BlockProgram
