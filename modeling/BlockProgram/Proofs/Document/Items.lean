import BlockProgram.Document.Read
import Mathlib.Data.List.Basic

/-!
# A document as a list of items

Reading goes through the elements of a document in the order in which they are written. What it
takes notice of can be listed: the variables of the first `variables` element, and then, for each
block element that is used, the element itself and its fields and slots, each slot followed by all
that is used in it. The list is given here by the elements of the document alone. What reading does
to the variables and the identities that it has met, and which fault it finds first, is what the
items do one after the other.
-/

namespace BlockProgram

open Xml

/-- The elements of a content, each with its own content. -/
def Xml.Content.elements {τ : Type} : Content τ → List (τ × Content τ)
  | nil => []
  | text _ rest => rest.elements
  | quoted _ rest => rest.elements
  | comment _ rest => rest.elements
  | instruction _ _ rest => rest.elements
  | element tag content rest => (tag, content) :: rest.elements

namespace Document

/-! ### Items -/

/-- One thing that reading takes notice of. -/
inductive Item where
  /-- A listed variable with its handle and its name. -/
  | listed (handle? : Option String) (name : String)
  /-- A block element that is used. -/
  | block (head : Head)
  /-- A field of a block of a kind, with its name, its handle and its text. -/
  | field (kind : Kind) (name? handle? : Option String) (text : String)
  /-- A slot with its name. -/
  | slot (slot : SlotElement) (name? : Option String)
  deriving DecidableEq, Repr

/-- The kind of block that an element stands for. -/
def Head.kind (h : Head) : Kind := Kind.ofTag (h.type?.getD "")

/-- The slot that the name of an element stands for. -/
def SlotElement.ofName? (name : String) : Option SlotElement :=
  [value, statement, next].find? (·.name = name)

/-- The first `block` element of a content. -/
def firstBlock? (c : Content Tag) : Option (Tag × Content Tag) :=
  c.elements.find? (·.1.name = "block")

/-- The first `shadow` element of a content. -/
def firstShadow? (c : Content Tag) : Option (Tag × Content Tag) :=
  c.elements.find? (·.1.name = "shadow")

mutual

/-- The items of what stands in a block element of a kind. -/
def childItems (kind : Kind) : Content Tag → List Item
  | .nil => []
  | .text _ rest => childItems kind rest
  | .quoted _ rest => childItems kind rest
  | .comment _ rest => childItems kind rest
  | .instruction _ _ rest => childItems kind rest
  | .element t content rest =>
    if t.name = "field" then
      .field kind (t.get? "name") (t.get? "id") (String.ofList content.chars) ::
        childItems kind rest
    else match SlotElement.ofName? t.name with
      | none => childItems kind rest
      | some slot => .slot slot (t.get? "name") :: (slotItems content ++ childItems kind rest)

/-- The items of what stands in a slot. It is filled by a `block`, or by a `shadow` after which there
is no `block`; nothing else in it is used. -/
def slotItems : Content Tag → List Item
  | .nil => []
  | .text _ rest => slotItems rest
  | .quoted _ rest => slotItems rest
  | .comment _ rest => slotItems rest
  | .instruction _ _ rest => slotItems rest
  | .element t content rest =>
    if t.name = "block" || (t.name = "shadow" && (firstBlock? rest).isNone) then
      .block (Head.ofTag t) :: childItems (Head.ofTag t).kind content
    else slotItems rest

end

/-- The items of a block element that is used. -/
def blockItems (e : Tag × Content Tag) : List Item :=
  .block (Head.ofTag e.1) :: childItems (Head.ofTag e.1).kind e.2

/-- The `variable` elements of the first `variables` element. -/
def variableElements (c : Content Tag) : List (Tag × Content Tag) :=
  match c.elements.find? (·.1.name = "variables") with
  | none => []
  | some e => e.2.elements.filter (·.1.name = "variable")

/-- The items of a document, given the content of its outermost element. -/
def items (c : Content Tag) : List Item :=
  (variableElements c).map (fun e => .listed (e.1.get? "id") (String.ofList e.2.chars)) ++
    (c.elements.filter fun e => isBlockTag e.1).flatMap blockItems

theorem firstBlock?_element (t : Tag) (content rest : Content Tag) :
    firstBlock? (.element t content rest) =
      if t.name = "block" then some (t, content) else firstBlock? rest := by
  by_cases h : t.name = "block" <;> simp [firstBlock?, Content.elements, h]

theorem firstShadow?_element (t : Tag) (content rest : Content Tag) :
    firstShadow? (.element t content rest) =
      if t.name = "shadow" then some (t, content) else firstShadow? rest := by
  by_cases h : t.name = "shadow" <;> simp [firstShadow?, Content.elements, h]

/-! ### The items of an outline -/

/-- The items of the parts of a block of a kind. -/
def Parts.items (kind : Kind) : Parts → List Item
  | .nil => []
  | .field name? handle? text rest => .field kind name? handle? text :: rest.items kind
  | .vacant slot name? rest => .slot slot name? :: rest.items kind
  | .filled slot name? h below rest =>
    .slot slot name? :: .block h :: (below.items h.kind ++ rest.items kind)

/-- The items of a block element with its parts. -/
def BlockElement.items (b : BlockElement) : List Item := .block b.head :: b.parts.items b.head.kind

/-- The block element that an element is. -/
def blockElement (e : Tag × Content Tag) : BlockElement := ⟨Head.ofTag e.1, parts e.2⟩

/-- The element at the top that an element is. -/
def topElement (e : Tag × Content Tag) : TopElement :=
  ⟨blockElement e, e.1.get? "x", e.1.get? "y"⟩

/-- The listed variable that an element is. -/
def listedVariable (e : Tag × Content Tag) : VariableElement :=
  ⟨e.1.get? "id", String.ofList e.2.chars⟩

/-- The items of an outline. -/
def Outline.items (o : Outline) : List Item :=
  o.listed.map (fun v => .listed v.handle? v.name) ++ o.top.flatMap fun e => e.block.items

theorem items_slotPart (kind : Kind) (slot : SlotElement) (name? : Option String)
    (b : Option BlockElement) (rest : Parts) :
    (slotPart slot name? b rest).items kind =
      .slot slot name? :: (b.elim [] BlockElement.items ++ rest.items kind) := by
  cases b <;> rfl

/-- A slot is filled by a `block` exactly if it has one. -/
theorem any_block_filling (c : Content Tag) :
    (filling c).any (·.head.element = "block") = (firstBlock? c).isSome := by
  induction c with
  | nil => rfl
  | text _ rest ih | quoted _ rest ih | comment _ rest ih | instruction _ _ rest ih => exact ih
  | element t content rest _ ih =>
    rw [filling, firstBlock?_element]
    by_cases hblock : t.name = "block"
    · simp [hblock, Head.ofTag]
    · have hhead : (Head.ofTag t).element ≠ "block" := hblock
      rw [if_neg hblock, if_neg hblock, ← ih]
      split
      · cases filling rest with
        | none => simp [hhead]
        | some b =>
          by_cases hb : b.head.element = "block" <;> simp [hb, hhead]
      · rfl

theorem parts_element (t : Tag) (content rest : Content Tag) :
    parts (.element t content rest) =
      if t.name = "field" then
        .field (t.get? "name") (t.get? "id") (String.ofList content.chars) (parts rest)
      else match SlotElement.ofName? t.name with
        | none => parts rest
        | some slot => slotPart slot (t.get? "name") (filling content) (parts rest) := by
  rw [parts]
  generalize t.name = name
  by_cases hvalue : name = "value"
  · simp [hvalue, SlotElement.ofName?, SlotElement.name]
  · by_cases hstatement : name = "statement"
    · simp [hstatement, SlotElement.ofName?, SlotElement.name]
    · by_cases hnext : name = "next"
      · simp [hnext, SlotElement.ofName?, SlotElement.name]
      · simp [hvalue, hstatement, hnext, SlotElement.ofName?, SlotElement.name, eq_comm]

theorem filling_element (t : Tag) (content rest : Content Tag) :
    filling (.element t content rest) =
      if t.name = "block" || (t.name = "shadow" && (firstBlock? rest).isNone) then
        some ⟨Head.ofTag t, parts content⟩
      else filling rest := by
  rw [filling]
  by_cases hblock : t.name = "block"
  · simp [hblock]
  · by_cases hshadow : t.name = "shadow"
    · -- a `shadow` gives way to a `block` after it
      have hany := any_block_filling rest
      cases hb : filling rest with
      | none =>
        rw [hb, Option.any_none] at hany
        simp [hshadow, ← Option.not_isSome, ← hany]
      | some b =>
        rw [hb, Option.any_some] at hany
        by_cases hused : b.head.element = "block" <;>
          simp [hused, hshadow, ← Option.not_isSome, ← hany]
    · simp [hblock, hshadow]

/-- The parts of a content and what it has as a slot have the items that are read off its
elements. -/
theorem items_parts_and_filling (c : Content Tag) :
    (∀ kind, (parts c).items kind = childItems kind c) ∧
      (filling c).elim [] BlockElement.items = slotItems c := by
  induction c with
  | nil => exact ⟨fun _ => rfl, rfl⟩
  | text _ rest ih | quoted _ rest ih | comment _ rest ih | instruction _ _ rest ih => exact ih
  | element t content rest ihc ihr =>
    obtain ⟨hparts, hfilling⟩ := ihc
    obtain ⟨hrest, hafter⟩ := ihr
    constructor
    · intro kind
      rw [parts_element, childItems]
      split
      · rw [Parts.items, hrest]
      · split
        · exact hrest kind
        · rw [items_slotPart, hfilling, hrest]
    · rw [filling_element, slotItems]
      split
      · exact congrArg (_ :: ·) (hparts _)
      · exact hafter

/-- A slot is filled by its first `block` element or else by its first `shadow` element. -/
theorem filling_eq (c : Content Tag) :
    filling c = ((firstBlock? c).or (firstShadow? c)).map blockElement := by
  induction c with
  | nil => rfl
  | text _ rest ih | quoted _ rest ih | comment _ rest ih | instruction _ _ rest ih => exact ih
  | element t content rest _ ih =>
    rw [filling_element, ih, firstBlock?_element, firstShadow?_element]
    by_cases hblock : t.name = "block"
    · simp [hblock, blockElement]
    · by_cases hshadow : t.name = "shadow"
      · cases firstBlock? rest <;> simp [hshadow, blockElement]
      · simp [hblock, hshadow]

theorem topElements_eq (c : Content Tag) :
    topElements c = (c.elements.filter (isBlockTag ·.1)).map topElement := by
  induction c with
  | nil => rfl
  | text _ rest ih | quoted _ rest ih | comment _ rest ih | instruction _ _ rest ih => exact ih
  | element t content rest _ ih =>
    by_cases h : isBlockTag t <;>
      simp [topElements, Content.elements, h, ih, topElement, blockElement]

theorem listedVariables_eq (c : Content Tag) :
    listedVariables c = (c.elements.filter (·.1.name = "variable")).map listedVariable := by
  induction c with
  | nil => rfl
  | text _ rest ih | quoted _ rest ih | comment _ rest ih | instruction _ _ rest ih => exact ih
  | element t content rest _ ih =>
    by_cases h : t.name = "variable" <;>
      simp [listedVariables, listedVariable, Content.elements, h, ih]

theorem firstVariables_eq (c : Content Tag) :
    firstVariables c = (variableElements c).map listedVariable := by
  induction c with
  | nil => rfl
  | text _ rest ih | quoted _ rest ih | comment _ rest ih | instruction _ _ rest ih => exact ih
  | element t content rest _ ih =>
    by_cases h : t.name = "variables"
    · simp [firstVariables, variableElements, Content.elements, h, listedVariables_eq]
    · simpa [firstVariables, variableElements, Content.elements, h] using ih

theorem items_blockElement (e : Tag × Content Tag) : (blockElement e).items = blockItems e :=
  congrArg (_ :: ·) ((items_parts_and_filling e.2).1 _)

theorem items_topElements (c : Content Tag) :
    (topElements c).flatMap (·.block.items) =
      (c.elements.filter fun e => isBlockTag e.1).flatMap blockItems := by
  rw [topElements_eq, List.flatMap_map]
  exact List.flatMap_congr fun e _ => items_blockElement e

/-- The outline of a document has the items of the document. -/
theorem items_outline (c : Content Tag) : (outline c).items = items c := by
  rw [Outline.items, outline, items, items_topElements, firstVariables_eq, List.map_map]
  rfl

/-! ### Reading item by item -/

/-- What reading does with an item. -/
def Reading.accept (s : Reading) : Item → Except DocumentError Reading
  | .listed handle? name => .ok (s.listed ⟨handle?, name⟩)
  | .block h => (s.head h).map Prod.snd
  | .field _ none _ _ => .error (.missingAttribute "field" "name")
  | .field kind (some name) handle? text => .ok (s.field kind name handle? text).2
  | .slot slot name? => (slotOf slot name?).map fun _ => s

/-- A block that is begun is of the kind that its element stands for. -/
theorem Reading.kind_of_head {s s' : Reading} {h : Head} {n : Node}
    (hn : s.head h = .ok (n, s')) : n.kind = h.kind := by
  rw [head] at hn
  split at hn
  · cases hn
  · rename_i tag htype
    have hkind : h.kind = Kind.ofTag tag := by rw [Head.kind, htype, Option.getD_some]
    rw [hkind]
    split at hn
    · cases hn
      rfl
    · dsimp only at hn
      split at hn
      · cases hn
      · cases hn
        rfl

/-- Reading parts into a block accepts their items one after the other. -/
theorem Parts.read_eq_foldlM (p : Parts) (b : Block) (s : Reading) :
    (p.read b s).map Prod.snd = (p.items b.kind).foldlM Reading.accept s := by
  induction p generalizing b s with
  | nil => rfl
  | field name? handle? text rest ih =>
    cases name? with
    | none => rfl
    | some name => exact ih _ _
  | vacant slot name? rest ih =>
    rw [read, items, List.foldlM_cons, Reading.accept]
    cases slotOf slot name? with
    | error e => rfl
    | ok slot' => exact ih b s
  | filled slot name? h below rest ihb ihr =>
    rw [read, items, List.foldlM_cons, Reading.accept]
    cases slotOf slot name? with
    | error e => rfl
    | ok slot' =>
      simp only [Except.map, bind, Except.bind, List.foldlM_cons]
      cases hn : s.head h with
      | error e => simp [Reading.accept, hn, Except.map]
      | ok head =>
        obtain ⟨n, s₁⟩ := head
        have hkind : Block.kind ⟨n, .nil⟩ = h.kind := Reading.kind_of_head hn
        have hbelow := ihb ⟨n, .nil⟩ s₁
        rw [hkind] at hbelow
        simp only [Reading.accept, hn, Except.map, bind, Except.bind, List.foldlM_append]
        rw [← hbelow]
        cases below.read ⟨n, .nil⟩ s₁ with
        | error e => rfl
        | ok child => exact ihr (b.plug slot' child.1) child.2

/-- Reading a block element accepts its items one after the other. -/
theorem BlockElement.read_eq_foldlM (e : BlockElement) (s : Reading) :
    (e.read s).map Prod.snd = e.items.foldlM Reading.accept s := by
  rw [read, items, List.foldlM_cons, Reading.accept]
  cases hn : s.head e.head with
  | error fault => rfl
  | ok head =>
    obtain ⟨n, s₁⟩ := head
    have hparts := e.parts.read_eq_foldlM ⟨n, .nil⟩ s₁
    rwa [show Block.kind ⟨n, .nil⟩ = e.head.kind from Reading.kind_of_head hn] at hparts

theorem readTop_eq_foldlM (es : List TopElement) (s : Reading) :
    (readTop es s).map Prod.snd = (es.flatMap (·.block.items)).foldlM Reading.accept s := by
  induction es generalizing s with
  | nil => rfl
  | cons e es ih =>
    rw [readTop, List.flatMap_cons, List.foldlM_append, ← e.block.read_eq_foldlM]
    cases e.block.read s with
    | error fault => rfl
    | ok head =>
      have htail := ih head.2
      simp only [Except.map, bind, Except.bind] at htail ⊢
      rw [← htail]
      cases readTop es head.2 <;> rfl

theorem foldlM_listed (vs : List VariableElement) (s : Reading) :
    (vs.map fun v => Item.listed v.handle? v.name).foldlM Reading.accept s =
      .ok (vs.foldl Reading.listed s) := by
  induction vs generalizing s with
  | nil => rfl
  | cons v vs ih => exact ih (s.listed v)

/-- The items of a text that is well formed and has an outermost element of the right name. -/
def items? (text : String) : Option (List Item) :=
  match Xml.root? text with
  | none => none
  | some (tag, content) => if tag.name = rootName then some (items content) else none

theorem items?_eq_some {text : String} {its : List Item} (h : items? text = some its) :
    ∃ tag content, Xml.root? text = some (tag, content) ∧ tag.name = rootName ∧
      items content = its := by
  rw [items?] at h
  split at h
  · cases h
  · rename_i tag content hroot
    by_cases hname : tag.name = rootName
    · exact ⟨tag, content, hroot, hname, by simpa [hname] using h⟩
    · rw [if_neg hname] at h
      cases h

/-- A text that is read has items. -/
theorem exists_items?_of_read {text : String} {w : Workspace} (h : read text = .ok w) :
    ∃ its, items? text = some its := by
  rw [read] at h
  split at h
  · cases h
  · rename_i tag content hroot
    by_cases hname : tag.name = rootName
    · exact ⟨items content, by simp [items?, hroot, hname]⟩
    · rw [readElement, if_neg hname] at h
      cases h

/-- **Reading a document accepts its items one after the other**: it meets the first fault that they
meet, or else comes to the variables that they come to. -/
theorem read_eq_foldlM {text : String} {its : List Item} (h : items? text = some its) :
    (read text).map Workspace.registry =
      (its.foldlM Reading.accept .start).map Reading.registry := by
  obtain ⟨tag, content, hroot, hname, rfl⟩ := items?_eq_some h
  rw [read, hroot]
  simp only [readElement, hname, if_true]
  rw [← items_outline, Outline.read, Outline.items, List.foldlM_append, foldlM_listed]
  simp only [bind, Except.bind]
  rw [← readTop_eq_foldlM]
  cases readTop (outline content).top _ <;> rfl

theorem exists_read_iff {text : String} {its : List Item} (h : items? text = some its) :
    (∃ w, read text = .ok w) ↔ ∃ s, its.foldlM Reading.accept .start = .ok s := by
  have hread := read_eq_foldlM h
  cases hr : read text <;> cases hf : its.foldlM Reading.accept .start <;>
    simp [hr, hf, Except.map] at hread ⊢

theorem read_eq_error_iff {text : String} {its : List Item} (h : items? text = some its)
    {e : DocumentError} :
    read text = .error e ↔ its.foldlM Reading.accept .start = .error e := by
  have hread := read_eq_foldlM h
  cases hr : read text <;> cases hf : its.foldlM Reading.accept .start <;>
    simp_all [Except.map]

/-! ### Runs -/

namespace Reading

variable {s s' : Reading} {i : Item} {its : List Item}

/-- What has been met after an item; one that has a fault leaves no trace. -/
def advance (s : Reading) (i : Item) : Reading :=
  match s.accept i with
  | .ok s' => s'
  | .error _ => s

theorem advance_eq (h : s.accept i = .ok s') : s.advance i = s' := by rw [advance, h]

/-- A run without a fault goes from each item to the next. -/
theorem foldlM_cons_eq_ok :
    (i :: its).foldlM accept s = .ok s' ↔
      ∃ s₁, s.accept i = .ok s₁ ∧ its.foldlM accept s₁ = .ok s' := by
  rw [List.foldlM_cons]
  cases s.accept i with
  | error e => simp [bind, Except.bind]
  | ok s₁ => simp [bind, Except.bind]

theorem eq_foldl_of_foldlM (h : its.foldlM accept s = .ok s') : s' = its.foldl advance s := by
  induction its generalizing s with
  | nil =>
    cases h
    rfl
  | cons i its ih =>
    obtain ⟨s₁, hi, hits⟩ := foldlM_cons_eq_ok.mp h
    rw [List.foldl_cons, advance_eq hi]
    exact ih hits

/-- In a run without a fault each item is accepted after those before it. -/
theorem accept_of_foldlM {before after : List Item}
    (h : (before ++ i :: after).foldlM accept s = .ok s') :
    before.foldlM accept s = .ok (before.foldl advance s) ∧
      ∃ s₁, (before.foldl advance s).accept i = .ok s₁ := by
  rw [List.foldlM_append] at h
  cases hb : before.foldlM accept s with
  | error e =>
    rw [hb] at h
    cases h
  | ok s₀ =>
    rw [hb] at h
    obtain ⟨s₁, hi, -⟩ := foldlM_cons_eq_ok.mp h
    rw [← eq_foldl_of_foldlM hb]
    exact ⟨rfl, s₁, hi⟩

/-- A run that fails does so at an item, after a run without a fault. -/
theorem exists_of_foldlM_eq_error {e : DocumentError} (h : its.foldlM accept s = .error e) :
    ∃ before i after, its = before ++ i :: after ∧
      before.foldlM accept s = .ok (before.foldl advance s) ∧
      (before.foldl advance s).accept i = .error e := by
  induction its generalizing s with
  | nil => cases h
  | cons i its ih =>
    rw [List.foldlM_cons] at h
    cases hi : s.accept i with
    | error e' =>
      rw [hi] at h
      cases h
      exact ⟨[], i, its, rfl, rfl, hi⟩
    | ok s₁ =>
      rw [hi] at h
      obtain ⟨before, j, after, rfl, hbefore, hj⟩ := ih h
      refine ⟨i :: before, j, after, rfl, ?_, ?_⟩
      · exact foldlM_cons_eq_ok.mpr ⟨s₁, hi, by rwa [List.foldl_cons, advance_eq hi]⟩
      · rwa [List.foldl_cons, advance_eq hi]

end Reading

end Document

end BlockProgram
