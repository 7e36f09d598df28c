import BlockProgram.Proofs.Document.RoundTrip
import BlockProgram.Proofs.Workspace.Sound
import BlockProgram.Proofs.Xml.Legible

/-!
# Which canvases are read back

A canvas is legible if every string on it is a text that a document may hold. Strings of any
characters are taken in, and all of them are written, so that a canvas that is not legible is
written as a text that is no document. A sound canvas of known tags is read back exactly if it is
legible, with its blocks and its variables as they were.
-/

namespace BlockProgram

open Xml Document

/-- The strings of a block are texts that a document may hold, the blocks that hang on it aside. -/
structure Block.Legible (b : Block) : Prop where
  /-- The tag of its kind is a text. -/
  tag : isText b.kind.tag
  /-- The identity is a text. -/
  id : isText b.id.text
  /-- The names of its settings and what they hold are texts. -/
  fields : ∀ e ∈ b.node.fields.entries, isText e.1 ∧ isText e.2.string
  /-- The names of its slots are texts. -/
  slots : ∀ slot ∈ b.children.slots, ∀ name ∈ slot.name?, isText name

/-- The strings of a canvas are texts that a document may hold. -/
structure Workspace.Legible (w : Workspace) : Prop where
  /-- Those of every block are. -/
  blocks : ∀ b ∈ w.walk, b.Legible
  /-- The handles and the names of the variables are. -/
  names : ∀ v ∈ w.registry.vars, isText v.handle.text ∧ isText v.resolved

instance (b : Block) : Decidable b.Legible :=
  decidable_of_iff (isText b.kind.tag ∧ isText b.id.text ∧
      (∀ e ∈ b.node.fields.entries, isText e.1 ∧ isText e.2.string) ∧
      ∀ slot ∈ b.children.slots, ∀ name ∈ slot.name?, isText name)
    ⟨fun ⟨htag, hid, hfields, hslots⟩ => ⟨htag, hid, hfields, hslots⟩,
      fun h => ⟨h.tag, h.id, h.fields, h.slots⟩⟩

instance (w : Workspace) : Decidable w.Legible :=
  decidable_of_iff ((∀ b ∈ w.walk, b.Legible) ∧
      ∀ v ∈ w.registry.vars, isText v.handle.text ∧ isText v.resolved)
    ⟨fun ⟨hblocks, hnames⟩ => ⟨hblocks, hnames⟩, fun h => ⟨h.blocks, h.names⟩⟩

/-! ### What is written shows every string -/

section Written

variable {r : Registry}

theorem Field.legible_of_markup {name : String} {f : Field} {rest : Markup}
    (h : (f.markup r name rest).Legible) :
    (isText name ∧ isText f.string) ∧ rest.Legible := by
  have hattributes : (∀ a ∈ f.attributes name, isText a.2) ∧ isText (f.content r) ∧
      rest.Legible := by
    rw [markup_eq] at h
    split at h
    · rename_i hempty
      rw [String.isEmpty_iff.mp hempty]
      exact ⟨h.1, rfl, h.2.2⟩
    · exact h
  obtain ⟨hattributes, hcontent, hrest⟩ := hattributes
  refine ⟨?_, hrest⟩
  cases f with
  | text s => exact ⟨hattributes _ List.mem_cons_self, hcontent⟩
  | var g => simpa [attributes, string] using hattributes

theorem Fields.legible_of_markup {f : Fields} {rest : Markup} (h : (f.markup r rest).Legible) :
    (∀ e ∈ f.entries, isText e.1 ∧ isText e.2.string) ∧ rest.Legible := by
  obtain ⟨es⟩ := f
  simp only [markup] at h
  induction es with
  | nil => exact ⟨fun e he => absurd he List.not_mem_nil, h⟩
  | cons e es ih =>
    obtain ⟨he, h⟩ := Field.legible_of_markup h
    obtain ⟨hes, hrest⟩ := ih h
    exact ⟨List.forall_mem_cons.mpr ⟨he, hes⟩, hrest⟩

/-- The element of a block shows its strings, given that the names of its slots are shown. -/
theorem Block.legible_of_markup {b : Block} {place : List (String × String)} {slots rest : Markup}
    (h : (b.node.markup r place slots rest).Legible)
    (hslots : slots.Legible → ∀ slot ∈ b.children.slots, ∀ name ∈ slot.name?, isText name) :
    b.Legible ∧ slots.Legible ∧ rest.Legible := by
  obtain ⟨hattributes, hbody, hrest⟩ := h
  obtain ⟨htag, hattributes⟩ := List.forall_mem_cons.mp hattributes
  obtain ⟨hid, -⟩ := List.forall_mem_cons.mp hattributes
  obtain ⟨hfields, hbelow⟩ := Fields.legible_of_markup hbody
  exact ⟨⟨htag, hid, hfields, hslots hbelow⟩, hbelow, hrest⟩

theorem Children.slots_of_markup {cs : Children} (h : (cs.markup r).Legible) :
    ∀ slot ∈ cs.slots, ∀ name ∈ slot.name?, isText name := by
  induction cs with
  | nil => exact fun slot hslot => absurd hslot List.not_mem_nil
  | cons slot n below rest _ ih =>
    obtain ⟨hattributes, -, hrest⟩ := h
    refine List.forall_mem_cons.mpr ⟨fun name hname => ?_, ih hrest⟩
    cases slot with
    | input other => cases hname; exact hattributes _ List.mem_cons_self
    | statement other => cases hname; exact hattributes _ List.mem_cons_self
    | next => cases hname

theorem Children.legible_of_markup {cs : Children} (h : (cs.markup r).Legible) :
    ∀ b ∈ cs.walk, b.Legible := by
  induction cs with
  | nil => exact fun b hb => absurd hb List.not_mem_nil
  | cons slot n below rest ihb ihr =>
    obtain ⟨-, hblock, hrest⟩ := h
    obtain ⟨hb, hbelow, -⟩ :=
      Block.legible_of_markup (b := ⟨n, below⟩) hblock Children.slots_of_markup
    exact List.forall_mem_cons.mpr ⟨hb, List.forall_mem_append.mpr ⟨ihb hbelow, ihr hrest⟩⟩

theorem TopBlock.legible_of_markup {t : TopBlock} {rest : Markup}
    (h : (t.markup r rest).Legible) : (∀ b ∈ t.block.walk, b.Legible) ∧ rest.Legible := by
  obtain ⟨hb, hbelow, hrest⟩ := Block.legible_of_markup h Children.slots_of_markup
  exact ⟨List.forall_mem_cons.mpr ⟨hb, Children.legible_of_markup hbelow⟩, hrest⟩

theorem Registry.legible_of_markup (h : r.markup.Legible) :
    ∀ v ∈ r.vars, isText v.handle.text ∧ isText v.resolved := by
  rw [markup] at h
  generalize r.vars = vars at h
  induction vars with
  | nil => exact fun v hv => absurd hv List.not_mem_nil
  | cons v vs ih =>
    obtain ⟨hattributes, hname, h⟩ := h
    exact List.forall_mem_cons.mpr ⟨⟨hattributes _ List.mem_cons_self, hname⟩, ih h⟩

end Written

/-- What is written of a canvas shows every string. -/
theorem Document.legible_of_markup {w : Workspace} (h : (Document.markup w).Legible) :
    w.Legible := by
  have hblocks : ∀ top : List TopBlock, (top.foldr (TopBlock.markup w.registry) .nil).Legible →
      ∀ b ∈ top.flatMap fun t => t.block.walk, b.Legible := by
    intro top htop
    induction top with
    | nil => exact fun b hb => absurd hb List.not_mem_nil
    | cons t ts ih =>
      obtain ⟨ht, hts⟩ := TopBlock.legible_of_markup htop
      exact List.forall_mem_append.mpr ⟨ht, ih hts⟩
  rw [Document.markup] at h
  split at h
  · rename_i hempty
    exact ⟨hblocks w.top h, by simp [List.isEmpty_iff.mp hempty]⟩
  · exact ⟨hblocks w.top h.2.2, Registry.legible_of_markup h.2.1⟩

/-! ### Reading what was written -/

/-- A block of a sound canvas can be written if it is legible. -/
theorem Block.Legible.writable {b : Block} (hb : b.Legible) (hkind : b.node.Tagged)
    (hbound : b.node.Bound) : b.Writable :=
  ⟨hkind, hbound, hb.tag, hb.id, hb.fields, hb.slots⟩

/-- A legible canvas is read back with all its blocks, at the places that are read off their
elements, and with its variables under their handles and the names they go by. -/
theorem Workspace.Legible.read_elements {w : Workspace} (hlegible : w.Legible) (hw : w.Sound)
    (htagged : ∀ n ∈ w.nodes, n.Tagged) :
    ∃ w', Document.read (Document.write w) = .ok w' ∧
      w'.top = w.top.map (fun t => ⟨t.block, (t.element w.registry).position⟩) ∧
      w'.registry.vars.map (fun v => (v.handle, v.resolved)) =
        w.registry.vars.map (fun v => (v.handle, v.resolved)) := by
  let s := (w.registry.vars.map Variable.element).foldl Reading.listed .start
  obtain ⟨hvars, hseen⟩ : s.registry.vars =
      w.registry.vars.map (fun v => ⟨v.handle, v.resolved, v.resolved⟩) ∧ s.seen = [] :=
    listed_elements (s := .start) hw.handles
  -- the variables are read first, so that a handle on a block is known when the block is read
  have hknows : s.Knows w.registry := by
    intro h hd
    rw [Registry.declares_iff, Registry.handles] at hd ⊢
    rwa [hvars, List.map_map]
  have hblocks : ∀ b ∈ w.walk, b.Writable := by
    intro b hb
    have hn : b.node ∈ w.nodes := by
      rw [← Workspace.map_node_walk]
      exact List.mem_map_of_mem hb
    exact (hlegible.blocks b hb).writable (htagged _ hn) (hw.bound _ hn)
  have htop : readTop (w.top.map (TopBlock.element w.registry)) s = _ :=
    readTop_blocks hw.ordered (fun t ht b hb => hblocks b (List.mem_flatMap.mpr ⟨t, ht, hb⟩))
      hw.ids hknows (fun n _ => hseen ▸ List.not_mem_nil)
  refine ⟨.ofParts (w.top.map fun t => ⟨t.block, (t.element w.registry).position⟩) s.registry,
    ?_, rfl, ?_⟩
  · have hroot : root? (Markup.document "xml" _) = _ :=
      root?_document rfl (readable_markup hblocks hlegible.names)
    rw [Document.read, Document.write, hroot]
    simp only [readElement, rootName, if_true, outline_body, Outline.read]
    rw [show readTop _ (List.foldl _ _ _) = _ from htop]
    rfl
  · show s.registry.vars.map _ = _
    rw [hvars, List.map_map]
    rfl

/-- **A legible canvas is read back**, with all its blocks, and with its variables under their
handles and the names they go by. -/
theorem Workspace.Legible.read_back {w : Workspace} (hlegible : w.Legible) (hw : w.Sound)
    (htagged : ∀ n ∈ w.nodes, n.Tagged) :
    ∃ w', Document.read (Document.write w) = .ok w' ∧
      w'.top.map TopBlock.block = w.top.map TopBlock.block ∧
      w'.registry.vars.map (fun v => (v.handle, v.resolved)) =
        w.registry.vars.map (fun v => (v.handle, v.resolved)) := by
  obtain ⟨w', hread, htop, hvars⟩ := hlegible.read_elements hw htagged
  refine ⟨w', hread, ?_, hvars⟩
  rw [htop, List.map_map]
  rfl

/-- **A canvas that is not legible is not read back.** -/
theorem Document.read_write_of_not_legible {w : Workspace} (h : ¬ w.Legible) :
    Document.read (Document.write w) = .error .malformed := by
  rw [read]
  cases hroot : root? (Document.write w) with
  | none => rfl
  | some root => exact absurd (legible_of_markup (Markup.legible_of_root? rfl hroot)) h

end BlockProgram
