import BlockProgram.Document.Outline
import BlockProgram.Document.Write
import BlockProgram.Proofs.Xml.Tree

/-!
# The outline of what was written

The outline of a written document lists the variables with their handles and the names they go
by, and the blocks with their settings and slots in order. The gaps between elements, which are
text of the elements around them, leave no trace in it.
-/

namespace BlockProgram

open Xml Document

/-! ### Gaps leave no trace -/

namespace Document

/-- What overlooks a character before a content overlooks a gap. -/
theorem afterGap_overlooked {τ α : Type} {f : Content τ → α}
    (hf : ∀ c x, f (Content.consChar c x) = f x) (level : Nat) (x : Content τ) :
    f (x.afterGap level) = f x := by
  have hall : ∀ cs : List Char, f (cs.foldr Content.consChar x) = f x := by
    intro cs
    induction cs with
    | nil => rfl
    | cons c cs ih => rw [List.foldr_cons, hf, ih]
  exact hall _

@[simp] theorem parts_afterGap (level : Nat) (x : Content Tag) :
    parts (x.afterGap level) = parts x :=
  afterGap_overlooked (fun c x => by cases x <;> simp [Content.consChar, parts]) level x

@[simp] theorem filling_afterGap (level : Nat) (x : Content Tag) :
    filling (x.afterGap level) = filling x :=
  afterGap_overlooked (fun c x => by cases x <;> simp [Content.consChar, filling]) level x

@[simp] theorem topElements_afterGap (level : Nat) (x : Content Tag) :
    topElements (x.afterGap level) = topElements x :=
  afterGap_overlooked (fun c x => by cases x <;> simp [Content.consChar, topElements]) level x

@[simp] theorem listedVariables_afterGap (level : Nat) (x : Content Tag) :
    listedVariables (x.afterGap level) = listedVariables x :=
  afterGap_overlooked (fun c x => by cases x <;> simp [Content.consChar, listedVariables]) level x

@[simp] theorem firstVariables_afterGap (level : Nat) (x : Content Tag) :
    firstVariables (x.afterGap level) = firstVariables x :=
  afterGap_overlooked (fun c x => by cases x <;> simp [Content.consChar, firstVariables]) level x

/-- What overlooks gaps overlooks that an element without children has no gap in it. -/
theorem children_overlooked {α : Type} {f : Content Tag → α}
    (hf : ∀ level x, f (Content.afterGap level x) = f x) (m : Markup) (level : Nat) :
    f (if m.isNil then .nil else m.tree Tag.mk (level + 1) (Content.nil.afterGap level)) =
      f (m.tree Tag.mk (level + 1) (Content.nil.afterGap level)) := by
  cases m with
  | nil => exact (hf level .nil).symm
  | text name attributes content rest => rfl
  | element name attributes children rest => rfl

end Document

/-! ### Settings -/

/-- The text that is written for a setting. -/
def Field.content (r : Registry) : Field → String
  | .text s => s
  | .var h => ((r.get? h).map Variable.resolved).getD ""

/-- A setting as a part of an outline, and the parts after it. -/
def Field.part (r : Registry) (name : String) (f : Field) (rest : Parts) : Parts :=
  .field (some name) (f.handle?.map Handle.text) (f.content r) rest

/-- All settings as parts of an outline, and the parts after them. -/
def Fields.parts (r : Registry) (f : Fields) (rest : Parts) : Parts :=
  f.entries.foldr (fun e rest => e.2.part r e.1 rest) rest

/-- The attributes that are written for a setting. -/
def Field.attributes (name : String) : Field → List (String × String)
  | .text _ => [("name", name)]
  | .var h => [("name", name), ("id", h.text)]

theorem Field.markup_eq (r : Registry) (name : String) (f : Field) (rest : Markup) :
    f.markup r name rest =
      if (f.content r).isEmpty then .element "field" (f.attributes name) .nil rest
      else .text "field" (f.attributes name) (f.content r) rest := by
  cases f <;> rfl

/-- The element of a setting, whether it has a text or not. -/
theorem Field.tree_markup (r : Registry) (name : String) (f : Field) (rest : Markup) (level : Nat)
    (after : Content Tag) :
    ∃ content : Content Tag, content.chars = (f.content r).toList ∧
      (f.markup r name rest).tree Tag.mk level after =
        (Content.element ⟨"field", f.attributes name⟩ content
          (rest.tree Tag.mk level after)).afterGap level := by
  rw [markup_eq]
  split
  · rename_i hempty
    refine ⟨.nil, ?_, rfl⟩
    rw [String.isEmpty_iff.mp hempty]
    rfl
  · refine ⟨Content.nil.afterText (f.content r).toList, ?_, rfl⟩
    rw [Content.chars_afterText]
    simp [Content.chars]

theorem Field.parts_tree (r : Registry) (name : String) (f : Field) (rest : Markup) (level : Nat)
    (after : Content Tag) :
    Document.parts ((f.markup r name rest).tree Tag.mk level after) =
      f.part r name (Document.parts (rest.tree Tag.mk level after)) := by
  obtain ⟨content, hchars, htree⟩ := f.tree_markup r name rest level after
  rw [htree, parts_afterGap, Document.parts, if_pos rfl, hchars, String.ofList_toList, part]
  cases f <;> rfl

theorem Fields.parts_tree (r : Registry) (f : Fields) (rest : Markup) (level : Nat)
    (after : Content Tag) :
    Document.parts ((f.markup r rest).tree Tag.mk level after) =
      f.parts r (Document.parts (rest.tree Tag.mk level after)) := by
  obtain ⟨es⟩ := f
  simp only [markup, parts]
  induction es with
  | nil => rfl
  | cons e es ih => rw [List.foldr_cons, List.foldr_cons, Field.parts_tree, ih]

/-! ### Blocks -/

/-- The kind of a slot as a document names it. -/
def Slot.kind : Slot → SlotElement
  | .input _ => .value
  | .statement _ => .statement
  | .next => .next

/-- The name of a slot that has one. -/
def Slot.name? : Slot → Option String
  | .input name => some name
  | .statement name => some name
  | .next => none

/-- The element of a slot is a part of a block. -/
theorem Slot.parts_element (slot : Slot) (content rest : Content Tag) :
    Document.parts (.element ⟨slot.element, slot.attributes⟩ content rest) =
      slotPart slot.kind slot.name? (filling content) (Document.parts rest) := by
  cases slot <;> rfl

/-- What the element of a block says, its parts aside. -/
def Node.head (n : Node) : Head := ⟨"block", some n.kind.tag, some n.id.text⟩

/-- The blocks of a forest as parts of an outline. -/
def Children.parts (r : Registry) : Children → Parts
  | .nil => .nil
  | .cons slot n below rest =>
    .filled slot.kind slot.name? n.head (n.fields.parts r (below.parts r)) (rest.parts r)

/-- The content of a block element. -/
theorem Node.parts_body (r : Registry) (n : Node) {slots : Markup} {level : Nat} {p : Parts}
    (hslots : ∀ after, Document.parts after = .nil →
      Document.parts (slots.tree Tag.mk (level + 1) after) = p) :
    Document.parts (if (n.fields.markup r slots).isNil then .nil
        else (n.fields.markup r slots).tree Tag.mk (level + 1) (Content.nil.afterGap level)) =
      n.fields.parts r p := by
  rw [children_overlooked parts_afterGap, Fields.parts_tree, hslots]
  simp [Document.parts]

/-- The outline of a forest. -/
theorem Children.parts_tree (r : Registry) (cs : Children) (level : Nat) {after : Content Tag}
    (hafter : Document.parts after = .nil) :
    Document.parts ((cs.markup r).tree Tag.mk level after) = cs.parts r := by
  induction cs generalizing level after with
  | nil => exact hafter
  | cons slot n below rest ihb ihr =>
    -- what is in the slot is the element of the block
    have hfilling : filling (if (n.markup r [] (below.markup r) .nil).isNil then .nil
        else (n.markup r [] (below.markup r) .nil).tree Tag.mk (level + 1)
          (Content.nil.afterGap level)) = some ⟨n.head, n.fields.parts r (below.parts r)⟩ := by
      rw [children_overlooked filling_afterGap, Node.markup, Markup.tree, filling_afterGap, filling,
        if_pos rfl, n.parts_body r fun after h => ihb (level + 2) h]
      rfl
    rw [markup, Markup.tree, parts_afterGap, Slot.parts_element, hfilling, ihr level hafter]
    rfl

/-! ### Chains -/

/-- A chain as an element at the top of an outline. -/
def TopBlock.element (r : Registry) (t : TopBlock) : TopElement where
  block := ⟨t.block.node.head, t.block.node.fields.parts r (t.block.children.parts r)⟩
  x? := t.position.map fun p => Coordinate.text p.x
  y? := t.position.map fun p => Coordinate.text p.y

theorem isBlockTag_block (attributes : List (String × String)) :
    isBlockTag ⟨"block", attributes⟩ := rfl

theorem TopBlock.topElements_tree (r : Registry) (t : TopBlock) (rest : Markup) (level : Nat)
    (after : Content Tag) :
    topElements ((t.markup r rest).tree Tag.mk level after) =
      t.element r :: topElements (rest.tree Tag.mk level after) := by
  rw [markup, Node.markup, Markup.tree, topElements_afterGap, topElements,
    if_pos (isBlockTag_block _),
    Node.parts_body r _ fun after h => Children.parts_tree r _ (level + 1) h]
  obtain ⟨b, position⟩ := t
  cases position <;> rfl

/-- Chains at the top, before what is no block. -/
theorem topElements_tree (r : Registry) (top : List TopBlock) (level : Nat) {after : Content Tag}
    (hafter : topElements after = []) :
    topElements ((top.foldr (TopBlock.markup r) .nil).tree Tag.mk level after) =
      top.map (TopBlock.element r) := by
  induction top with
  | nil => exact hafter
  | cons t ts ih => rw [List.foldr_cons, TopBlock.topElements_tree, ih, List.map_cons]

/-- No variables are listed among chains. -/
theorem firstVariables_tree (r : Registry) (top : List TopBlock) (level : Nat)
    {after : Content Tag} (hafter : firstVariables after = []) :
    firstVariables ((top.foldr (TopBlock.markup r) .nil).tree Tag.mk level after) = [] := by
  induction top with
  | nil => exact hafter
  | cons t ts ih =>
    have hname : ¬ "block" = "variables" := by decide
    rw [List.foldr_cons, TopBlock.markup, Node.markup, Markup.tree, firstVariables_afterGap,
      firstVariables, if_neg hname, ih]

/-! ### Variables -/

/-- A variable as it is listed. -/
def Variable.element (v : Variable) : VariableElement := ⟨some v.handle.text, v.resolved⟩

theorem Registry.listedVariables_tree (r : Registry) (level : Nat) {after : Content Tag}
    (hafter : listedVariables after = []) :
    listedVariables (r.markup.tree Tag.mk level after) = r.vars.map Variable.element := by
  rw [markup]
  induction r.vars with
  | nil => exact hafter
  | cons v vs ih =>
    rw [List.foldr_cons, Markup.tree, listedVariables_afterGap, listedVariables, if_pos rfl, ih,
      Content.chars_afterText, Content.chars, List.append_nil, String.ofList_toList]
    rfl

/-! ### Whole documents -/

/-- **The outline of a written document.** -/
theorem Document.outline_body (w : Workspace) :
    outline (Document.markup w).body =
      ⟨w.registry.vars.map Variable.element, w.top.map (TopBlock.element w.registry)⟩ := by
  have hfirst : ∀ m : Markup, firstVariables m.body =
      firstVariables (m.tree Tag.mk 1 (Content.nil.afterGap 0)) :=
    fun m => children_overlooked firstVariables_afterGap m 0
  have htop : ∀ m : Markup, topElements m.body =
      topElements (m.tree Tag.mk 1 (Content.nil.afterGap 0)) :=
    fun m => children_overlooked topElements_afterGap m 0
  have hnone : firstVariables (Content.nil.afterGap 0) = [] := by simp [firstVariables]
  have hempty : topElements (Content.nil.afterGap 0) = [] := by simp [topElements]
  rw [outline, hfirst, htop, Document.markup]
  split
  · rename_i hvars
    rw [firstVariables_tree _ _ 1 hnone, topElements_tree _ _ 1 hempty, List.isEmpty_iff.mp hvars]
    rfl
  · have hname : ¬ isBlockTag ⟨"variables", []⟩ := by decide
    have hlisted : listedVariables (Content.nil.afterGap 1) = [] := by simp [listedVariables]
    rw [Markup.tree, firstVariables_afterGap, firstVariables, if_pos rfl,
      children_overlooked listedVariables_afterGap, Registry.listedVariables_tree _ 2 hlisted,
      topElements_afterGap, topElements, if_neg hname, topElements_tree _ _ 1 hempty]

end BlockProgram
