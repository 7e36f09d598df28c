import BlockProgram.Proofs.Document.Items

/-!
# Foreign content

A document may hold more than reading uses: comments, instructions and text between elements,
elements that are unknown where they stand, a second list of variables, what would fill a slot that
is filled. To delete any of this, at any depth, changes nothing, whatever identities, types and
variables it carries: the outline stays the same, and reading sees no more than the outline.

Contents are compared by their elements, since comments, instructions and text between elements are
what a content has besides. Of an element that is not one of those with children to be used, nothing
counts but its characters.
-/

namespace BlockProgram.Document

open Xml

/-- The elements of a content, each with its own content. -/
abbrev Elements := List (Tag × Content Tag)

/-! ### What may be deleted -/

/-- The name of the elements by which a slot is filled: `block`, or `shadow` if there is no such
element. -/
def fillerName (es : Elements) : String :=
  if (es.find? (·.1.name = "block")).isSome then "block" else "shadow"

/-- Whether an element is one that fills a slot. -/
def fills (filler? : Option String) (t : Tag) : Bool := isBlockTag t && some t.name = filler?

/-- What elements are to the one around them, which is gone through from the first one to the
last. -/
inductive Role where
  /-- Below the outermost element, whether or not a `variables` element has gone before. -/
  | top (listed : Bool)
  /-- In a list of variables. -/
  | declarations
  /-- In a block element. -/
  | parts
  /-- In a slot that is still to be filled by an element of a name, or is filled. -/
  | slot (filler? : Option String)
  deriving DecidableEq, Repr

/-- The role of what stands in an element, unless nothing of it counts but its characters. -/
def Role.inside? (t : Tag) (es : Elements) : Option Role :=
  match t.name with
  | "variables" => some .declarations
  | "block" | "shadow" => some .parts
  | "value" | "statement" | "next" => some (.slot (some (fillerName es)))
  | _ => none

/-- Whether an element is foreign, and may be deleted. -/
def Role.ignores : Role → Tag → Bool
  | top listed, t => !isBlockTag t && (listed || t.name ≠ "variables")
  | declarations, t => t.name ≠ "variable"
  | parts, t => t.name ∉ ["field", "value", "statement", "next"]
  | slot filler?, t => !fills filler? t

/-- The role of what stands after an element. -/
def Role.after : Role → Tag → Role
  | top listed, t => .top (listed || t.name = "variables")
  | slot filler?, t => .slot (if fills filler? t then none else filler?)
  | r, _ => r

/-- Elements with foreign content deleted from them, in some places or in none. -/
inductive Stripped : Role → Elements → Elements → Prop where
  /-- There are no elements. -/
  | nil {r : Role} : Stripped r [] []
  /-- A foreign element is deleted with all that is in it. -/
  | drop {r : Role} {t : Tag} {c : Content Tag} {es es' : Elements} (hforeign : r.ignores t)
      (hrest : Stripped (r.after t) es es') : Stripped r ((t, c) :: es) es'
  /-- An element is kept, with foreign content deleted from what is in it. -/
  | keep {r r' : Role} {t : Tag} {c c' : Content Tag} {es es' : Elements}
      (hrole : Role.inside? t c.elements = some r') (hinside : Stripped r' c.elements c'.elements)
      (hrest : Stripped (r.after t) es es') : Stripped r ((t, c) :: es) ((t, c') :: es')
  /-- An element is kept of which nothing counts but its characters. -/
  | leaf {r : Role} {t : Tag} {c c' : Content Tag} {es es' : Elements}
      (hrole : Role.inside? t c.elements = none) (hchars : c'.chars = c.chars)
      (hrest : Stripped (r.after t) es es') : Stripped r ((t, c) :: es) ((t, c') :: es')

/-! ### The outline by elements -/

/-- What an element is in a block element, and the parts after it. -/
def part (e : Tag × Content Tag) (rest : Parts) : Parts :=
  if e.1.name = "field" then
    .field (e.1.get? "name") (e.1.get? "id") (String.ofList e.2.chars) rest
  else match SlotElement.ofName? e.1.name with
    | none => rest
    | some slot => slotPart slot (e.1.get? "name") (filling e.2) rest

theorem parts_eq_foldr (c : Content Tag) : parts c = c.elements.foldr part .nil := by
  induction c with
  | nil => rfl
  | text _ rest ih | quoted _ rest ih | comment _ rest ih | instruction _ _ rest ih => exact ih
  | element t content rest _ ih =>
    rw [parts_element, Content.elements, List.foldr_cons, ← ih]
    rfl

theorem fills_block (t : Tag) : fills (some "block") t = decide (t.name = "block") := by
  simp +contextual [fills, isBlockTag]

theorem fills_shadow (t : Tag) : fills (some "shadow") t = decide (t.name = "shadow") := by
  simp +contextual [fills, isBlockTag]

/-- A slot is filled by the first element of the name that fills it. -/
theorem filling_eq_find? (c : Content Tag) :
    filling c = (c.elements.find? (fills (some (fillerName c.elements)) ·.1)).map blockElement := by
  rw [filling_eq, firstBlock?, firstShadow?]
  cases hfirst : c.elements.find? (·.1.name = "block") <;>
    simp [fillerName, fills_block, fills_shadow, hfirst]

/-- The variables in the first `variables` element. -/
def declared (es : Elements) : List VariableElement :=
  (es.find? (·.1.name = "variables")).elim [] fun e => listedVariables e.2

theorem firstVariables_eq_declared (c : Content Tag) : firstVariables c = declared c.elements := by
  rw [firstVariables_eq, variableElements, declared]
  cases c.elements.find? (·.1.name = "variables") with
  | none => rfl
  | some e => exact (listedVariables_eq e.2).symm

/-! ### Deleting changes nothing that is used -/

/-- Two lists of elements that come to the same in a role. -/
def Role.Agree : Role → Elements → Elements → Prop
  | top listed, es, es' =>
    (es'.filter (isBlockTag ·.1)).map topElement = (es.filter (isBlockTag ·.1)).map topElement ∧
      (listed = false → declared es' = declared es)
  | declarations, es, es' =>
    (es'.filter (·.1.name = "variable")).map listedVariable =
      (es.filter (·.1.name = "variable")).map listedVariable
  | parts, es, es' => es'.foldr part .nil = es.foldr part .nil
  | slot filler?, es, es' =>
    (es'.find? (fills filler? ·.1)).map blockElement =
      (es.find? (fills filler? ·.1)).map blockElement

/-- Two contents of an element that come to the same, as far as elements with its tag are used. -/
structure Alike (t : Tag) (c c' : Content Tag) : Prop where
  /-- The variables that are listed. -/
  declarations : t.name = "variables" → listedVariables c' = listedVariables c
  /-- The parts of a block element. -/
  parts : isBlockTag t → parts c' = parts c
  /-- What fills a slot. -/
  filling : ∀ slot, SlotElement.ofName? t.name = some slot → filling c' = filling c
  /-- The characters of a field or a variable. -/
  chars : t.name = "field" ∨ t.name = "variable" → c'.chars = c.chars

namespace Role

variable {r : Role} {t : Tag} {c c' : Content Tag} {es es' : Elements}

theorem inside?_of_variables (h : t.name = "variables") : inside? t es = some .declarations := by
  simp [inside?, h]

theorem inside?_of_isBlockTag (h : isBlockTag t) : inside? t es = some .parts := by
  have hname : t.name = "block" ∨ t.name = "shadow" := by simpa [isBlockTag] using h
  rcases hname with hname | hname <;> simp [inside?, hname]

theorem inside?_of_slot {slot : SlotElement} (h : SlotElement.ofName? t.name = some slot) :
    inside? t es = some (.slot (some (fillerName es))) := by
  have hname : slot.name = t.name := by simpa using List.find?_some h
  cases slot <;> simp [inside?, ← hname, SlotElement.name]

theorem inside?_of_leaf (h : t.name = "field" ∨ t.name = "variable") : inside? t es = none := by
  rcases h with h | h <;> simp [inside?, h]

theorem agree_nil (r : Role) : r.Agree [] [] := by
  cases r <;> simp [Agree]

/-- A foreign element may be left out. -/
theorem Agree.drop (hforeign : r.ignores t) (hrest : (r.after t).Agree es es') :
    r.Agree ((t, c) :: es) es' := by
  cases r with
  | top listed =>
    obtain ⟨htop, hdeclared⟩ := hrest
    obtain ⟨hblock, hlisted⟩ : isBlockTag t = false ∧ (listed = true ∨ t.name ≠ "variables") := by
      simpa [ignores] using hforeign
    refine ⟨by simpa [hblock] using htop, fun hfirst => ?_⟩
    have hname : t.name ≠ "variables" := hlisted.resolve_left (by simp [hfirst])
    simpa [declared, hname] using hdeclared (by simp [hfirst, hname])
  | declarations =>
    have hname : t.name ≠ "variable" := by simpa [ignores] using hforeign
    simpa [Agree, after, hname] using hrest
  | parts =>
    obtain ⟨hfield, hvalue, hstatement, hnext⟩ : t.name ≠ "field" ∧ t.name ≠ "value" ∧
        t.name ≠ "statement" ∧ t.name ≠ "next" := by
      simpa [ignores] using hforeign
    have hslot : SlotElement.ofName? t.name = none := by
      simp [SlotElement.ofName?, SlotElement.name, hvalue.symm, hstatement.symm, hnext.symm]
    simpa [Agree, after, part, hfield, hslot] using hrest
  | slot filler? =>
    have hfills : fills filler? t = false := by simpa [ignores] using hforeign
    simpa [Agree, after, hfills] using hrest

/-- Alike elements may be put in front. -/
theorem Agree.cons (halike : Alike t c c') (hrest : (r.after t).Agree es es') :
    r.Agree ((t, c) :: es) ((t, c') :: es') := by
  have hblock : isBlockTag t → blockElement (t, c') = blockElement (t, c) :=
    fun h => congrArg (BlockElement.mk _) (halike.parts h)
  cases r with
  | top listed =>
    obtain ⟨htop, hdeclared⟩ := hrest
    constructor
    · by_cases h : isBlockTag t
      · simpa [h, topElement, hblock h] using htop
      · simpa [h] using htop
    · intro hfirst
      by_cases h : t.name = "variables"
      · simp [declared, h, halike.declarations h]
      · simpa [declared, h] using hdeclared (by simp [hfirst, h])
  | declarations =>
    by_cases h : t.name = "variable"
    · simpa [Agree, after, h, listedVariable, halike.chars (.inr h)] using hrest
    · simpa [Agree, after, h] using hrest
  | parts =>
    have hpart : part (t, c') = part (t, c) := by
      funext rest
      unfold part
      by_cases hfield : t.name = "field"
      · simp [hfield, halike.chars (.inl hfield)]
      · cases hslot : SlotElement.ofName? t.name with
        | none => simp [hfield]
        | some slot => simp [hfield, halike.filling slot hslot]
    simpa [Agree, hpart] using congrArg (part (t, c)) hrest
  | slot filler? =>
    by_cases h : fills filler? t
    · have hb : isBlockTag t := by
        simp only [fills, Bool.and_eq_true] at h
        exact h.1
      simp [Agree, h, hblock hb]
    · simpa [Agree, after, h] using hrest

end Role

namespace Stripped

variable {r : Role} {t : Tag} {c c' : Content Tag} {es es' : Elements}

/-- What is kept was there, in the same order. -/
theorem sublist_tags (h : Stripped r es es') : (es'.map Prod.fst).Sublist (es.map Prod.fst) := by
  induction h with
  | nil => exact .slnil
  | drop _ _ ih => exact ih.cons _
  | keep _ _ _ _ ih | leaf _ _ _ ih => exact ih.cons_cons _

/-- A slot that is filled by a `block` stays so, and no `block` comes in. -/
theorem fillerName_eq (h : Stripped (.slot (some (fillerName es))) es es')
    (hagree : (Role.slot (some (fillerName es))).Agree es es') : fillerName es' = fillerName es := by
  cases hfirst : es.find? (·.1.name = "block") with
  | some e =>
    have hname : fillerName es = "block" := by simp [fillerName, hfirst]
    simp only [hname, Role.Agree, fills_block, hfirst] at hagree
    have hsome := congrArg Option.isSome hagree
    rw [Option.isSome_map, Option.isSome_map, Option.isSome_some] at hsome
    rw [hname, fillerName, if_pos hsome]
  | none =>
    have hnone : es'.find? (·.1.name = "block") = none := by
      rw [List.find?_eq_none] at hfirst ⊢
      intro e he
      obtain ⟨e₀, he₀, htag⟩ := List.mem_map.mp (h.sublist_tags.subset (List.mem_map_of_mem he))
      exact htag ▸ hfirst e₀ he₀
    rw [fillerName, fillerName, hfirst, hnone]

/-- Contents of an element are alike that agree in the role that they have there, and have the same
characters if they have none. -/
theorem alike_of_agree
    (hinside : ∀ r, Role.inside? t c.elements = some r →
      Stripped r c.elements c'.elements ∧ r.Agree c.elements c'.elements)
    (hchars : Role.inside? t c.elements = none → c'.chars = c.chars) : Alike t c c' where
  declarations h := by
    rw [listedVariables_eq, listedVariables_eq]
    exact (hinside _ (Role.inside?_of_variables h)).2
  parts h := by
    rw [parts_eq_foldr, parts_eq_foldr]
    exact (hinside _ (Role.inside?_of_isBlockTag h)).2
  filling slot h := by
    obtain ⟨hstripped, hagree⟩ := hinside _ (Role.inside?_of_slot h)
    rw [filling_eq_find?, filling_eq_find?, hstripped.fillerName_eq hagree]
    exact hagree
  chars h := hchars (Role.inside?_of_leaf h)

/-- Elements from which foreign content is deleted come to the same. -/
theorem agree (h : Stripped r es es') : r.Agree es es' := by
  induction h with
  | nil => exact Role.agree_nil _
  | drop hforeign _ ih => exact ih.drop hforeign
  | keep hrole hinside _ ihc ihr =>
    refine ihr.cons (alike_of_agree (fun r hr => ?_) fun hnone => ?_)
    · obtain rfl := Option.some.inj (hrole.symm.trans hr)
      exact ⟨hinside, ihc⟩
    · rw [hrole] at hnone
      cases hnone
  | leaf hrole hchars _ ih =>
    refine ih.cons (alike_of_agree (fun r hr => ?_) fun _ => hchars)
    rw [hrole] at hr
    cases hr

end Stripped

/-- A document has the same outline without foreign content. -/
theorem outline_eq_of_stripped {c c' : Content Tag}
    (h : Stripped (.top false) c.elements c'.elements) : outline c' = outline c := by
  obtain ⟨htop, hdeclared⟩ := h.agree
  rw [outline, outline, topElements_eq, topElements_eq, htop, firstVariables_eq_declared,
    firstVariables_eq_declared, hdeclared rfl]

/-- **Foreign content is inert.** With any foreign content deleted from it, at any depth, a document
is read to the same canvas, or refused for the same reason. Of texts this is said of any two that are
well formed: what is cut out of a text may leave one that is not, as `]]` and `>` come together when
a comment between them goes. -/
theorem read_eq_of_stripped {tag : Tag} {c c' : Content Tag}
    (h : Stripped (.top false) c.elements c'.elements) :
    readElement tag c' = readElement tag c ∧
      ∀ text text' : String, root? text = some (tag, c) → root? text' = some (tag, c') →
        read text' = read text := by
  have helement : readElement tag c' = readElement tag c := by
    rw [readElement, readElement, outline_eq_of_stripped h]
  refine ⟨helement, fun text text' htext htext' => ?_⟩
  simp only [read, htext, htext', helement]

/-- What goes are characters, a comment, an unknown element, a `shadow` without a type and a second
`block` in one slot, whose identity is there already. -/
theorem read_eq_of_stripped_filled :
    let outer (c : Content Tag) : Content Tag :=
      .element ⟨"block", [("type", "text_print"), ("id", "a")]⟩
        (.element ⟨"value", [("name", "V")]⟩ c .nil) .nil
    let inner (c : Content Tag) : Content Tag :=
      .element ⟨"block", [("type", "text"), ("id", "b")]⟩ .nil c
    let c : Content Tag := .text ['x'] (.comment ['y'] (.element ⟨"mutation", [("id", "a")]⟩ .nil
      (outer (.element ⟨"shadow", []⟩ .nil (inner (.element ⟨"block", [("id", "a")]⟩ .nil .nil))))))
    let text := "<xml>x<!--y--><mutation id='a'/><block type='text_print' id='a'><value name='V'>" ++
      "<shadow/><block type='text' id='b'/><block id='a'/></value></block></xml>"
    let text' := "<xml><block type='text_print' id='a'><value name='V'><block type='text' id='b'/>" ++
      "</value></block></xml>"
    Stripped (.top false) c.elements (outer (inner .nil)).elements ∧
      root? text = some (⟨"xml", []⟩, c) ∧ root? text' = some (⟨"xml", []⟩, outer (inner .nil)) ∧
      read text' = read text := by
  intro outer inner c text text'
  have h : Stripped (.top false) c.elements (outer (inner .nil)).elements :=
    .drop rfl (.keep rfl (.keep rfl (.drop rfl (.keep rfl .nil (.drop rfl .nil))) .nil) .nil)
  have htext : root? text = some (⟨"xml", []⟩, c) := by decide +kernel
  have htext' : root? text' = some (⟨"xml", []⟩, outer (inner .nil)) := by decide +kernel
  exact ⟨h, htext, htext', (read_eq_of_stripped h).2 text text' htext htext'⟩

end BlockProgram.Document
