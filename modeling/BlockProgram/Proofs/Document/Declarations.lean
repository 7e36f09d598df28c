import BlockProgram.Proofs.Document.Items
import BlockProgram.Proofs.Document.Read

/-!
# The names that a document gives to its variables

A handle that stands in a document is given a name by the first listed variable with that handle, or
else by the first field with that handle that has a text. A variable without a handle is given a
made-up one, which differs from those that have been declared before it, but not from those that are
declared further on. Such a declaration is lost: the handle stays with the variable that it was made
up for.
-/

namespace BlockProgram.Document

/-! ### Names that items give -/

/-- The name that a listed variable gives to a handle. -/
def Item.listedName? (g : Handle) : Item → Option String
  | .listed (some h) name => if ⟨h⟩ = g then some name else none
  | _ => none

/-- The name that a field gives to a handle; a field without a text gives none. -/
def Item.fieldName? (g : Handle) : Item → Option String
  | .field _ (some _) (some h) text => if ⟨h⟩ = g ∧ text ≠ "" then some text else none
  | _ => none

/-- The name that an item gives to a handle. -/
def Item.name? (g : Handle) (i : Item) : Option String := (i.listedName? g).or (i.fieldName? g)

/-- The name that a document gives to a handle: that of the first listed variable with the handle, or
else that of the first field. -/
def givenName? (its : List Item) (g : Handle) : Option String :=
  (its.findSome? (Item.listedName? g)).or (its.findSome? (Item.fieldName? g))

/-- The name by which an item refers to a variable without giving its handle: a listed variable, or
the field of a block of a variable kind. -/
def Item.reference? : Item → Option String
  | .listed none name => some name
  | .field kind (some name) none text =>
    if name = variableField && kind.hasVariable then some text else none
  | _ => none

/-- The variable that is added under a made-up handle for an item that refers to it by name. -/
def Reading.madeUp? (s : Reading) (i : Item) : Option Variable :=
  match i.reference? with
  | none => none
  | some _ => (s.advance i).registry.vars[s.registry.vars.length]?

/-- The variables that are added under made-up handles while items are read. -/
def Reading.madeUp : Reading → List Item → List Variable
  | _, [] => []
  | s, i :: its => (s.madeUp? i).toList ++ (s.advance i).madeUp its

/-! ### One item -/

/-- Admitting a name leaves the variables as they are, or adds one under a made-up handle. -/
theorem registry_register_cases (r : Registry) (name : String) :
    (r.register name).2 = r ∨ (r.register name).2 =
      r.mint.2.push ⟨r.mint.1, name, Identifier.sanitize (some name) r.vars.length⟩ := by
  rcases r.register_cases name with ⟨_, _, h⟩ | ⟨_, h⟩
  · exact .inl (by rw [h])
  · exact .inr (by rw [h])

theorem registry_bind_cases (r : Registry) (name : String) :
    (r.bind name).2 = r ∨ (r.bind name).2 =
      r.mint.2.push ⟨r.mint.1, name, Identifier.sanitize (some name) r.vars.length⟩ := by
  rcases r.bind_cases name with ⟨_, _, h⟩ | h
  · exact .inl (by rw [h])
  · rw [h]
    exact registry_register_cases r name

namespace Reading

variable {s : Reading} {i : Item} {its : List Item} {g : Handle} {v : Variable}

/-- What an item does to the variables: it declares the handle that it gives a name to, or it refers
to a variable by name, or it leaves them as they are. -/
theorem registry_advance_cases (s : Reading) (i : Item) :
    (∃ h name, (∀ g, i.name? g = if h = g then some name else none) ∧ i.reference? = none ∧
      (s.advance i).registry = s.registry.declare h name) ∨
    (∃ name, (∀ g, i.name? g = none) ∧ i.reference? = some name ∧
      ((s.advance i).registry = s.registry ∨ (s.advance i).registry =
        s.registry.mint.2.push ⟨s.registry.mint.1, name,
          Identifier.sanitize (some name) s.registry.vars.length⟩)) ∨
    ((∀ g, i.name? g = none) ∧ i.reference? = none ∧ (s.advance i).registry = s.registry) := by
  cases i with
  | listed handle? name =>
    cases handle? with
    | some h =>
      exact .inl ⟨⟨h⟩, name, fun g => by simp [Item.name?, Item.listedName?, Item.fieldName?],
        rfl, rfl⟩
    | none =>
      exact .inr (.inl ⟨name, fun g => rfl, rfl, registry_register_cases s.registry name⟩)
  | block h =>
    refine .inr (.inr ⟨fun g => rfl, rfl, ?_⟩)
    rw [advance, accept]
    cases hn : s.head h with
    | error e => rfl
    | ok head => exact (head_eq_ok hn).2.2.2.1
  | field kind name? handle? text =>
    cases name? with
    | none => exact .inr (.inr ⟨fun g => rfl, rfl, rfl⟩)
    | some name =>
      cases handle? with
      | some h =>
        by_cases htext : text = ""
        · refine .inr (.inr ⟨fun g => ?_, rfl, ?_⟩)
          · simp [Item.name?, Item.listedName?, Item.fieldName?, htext]
          · simp [advance, accept, field, htext]
        · refine .inl ⟨⟨h⟩, text, fun g => ?_, rfl, ?_⟩
          · simp [Item.name?, Item.listedName?, Item.fieldName?, htext]
          · simp [advance, accept, field, htext]
      | none =>
        by_cases hvar : name = variableField && kind.hasVariable
        · refine .inr (.inl ⟨text, fun g => rfl, by simp [Item.reference?, hvar], ?_⟩)
          have hadvance : (s.advance (.field kind (some name) none text)).registry =
              (s.registry.bind text).2 := by
            rw [advance, accept, field, if_pos hvar]
          rw [hadvance]
          exact registry_bind_cases s.registry text
        · refine .inr (.inr ⟨fun g => rfl, by simp [Item.reference?, hvar], ?_⟩)
          rw [advance, accept, field, if_neg hvar]
  | slot slot name? =>
    refine .inr (.inr ⟨fun g => rfl, rfl, ?_⟩)
    rw [advance, accept]
    cases slotOf slot name? <;> rfl

/-- A made-up handle is numbered, and is given to the name that the item refers to. -/
theorem eq_of_madeUp? (h : s.madeUp? i = some v) :
    i.reference? = some v.declared ∧ v.handle = s.registry.mint.1 ∧
      (s.advance i).registry.get? v.handle = some v := by
  rw [madeUp?] at h
  rcases registry_advance_cases s i with ⟨_, _, -, hr, -⟩ | ⟨name, -, hr, hsame | hpush⟩ | ⟨-, hr, -⟩
  · rw [hr] at h
    cases h
  · rw [hr, hsame] at h
    simp at h
  · rw [hr, hpush] at h
    obtain rfl : _ = v := by simpa using h
    refine ⟨hr, rfl, ?_⟩
    rw [hpush, Registry.get?_push, if_pos rfl]
    rw [show s.registry.mint.2.get? s.registry.mint.1 = none from
      Registry.get?_eq_none_iff.mpr s.registry.mint_not_mem]
    rfl
  · rw [hr] at h
    cases h

/-- A handle that is declared after an item was so before, or is given a name by the item, or is made
up for it. -/
theorem get?_advance (s : Reading) (i : Item) (g : Handle) :
    (s.advance i).registry.get? g = (s.registry.get? g).or
      (((i.name? g).map fun name => ⟨g, name, name⟩).or
        ((s.madeUp? i).filter (·.handle = g))) := by
  rcases registry_advance_cases s i with ⟨h, name, hn, hr, hd⟩ | ⟨name, hn, hr, hsame | hpush⟩ |
    ⟨hn, hr, hsame⟩
  · rw [hd, Registry.get?_declare, hn, madeUp?, hr]
    by_cases hg : h = g <;> simp [hg]
  · rw [hn, madeUp?, hr, hsame]
    simp
  · have hmint : s.registry.mint.2.get? g = s.registry.get? g := rfl
    rw [hn, madeUp?, hr, hpush, Registry.get?_push, hmint]
    simp [Option.filter]
  · rw [hn, madeUp?, hr, hsame]
    simp

/-! ### A run -/

/-- What is declared stays so. -/
theorem get?_foldl_of_get? (h : s.registry.get? g = some v) :
    (its.foldl advance s).registry.get? g = some v := by
  induction its generalizing s with
  | nil => exact h
  | cons i its ih =>
    refine ih ?_
    rw [get?_advance, h, Option.some_or]

/-- A handle that no item has it made up has the first name that an item gives to it. -/
theorem get?_foldl (h : ∀ v ∈ s.madeUp its, v.handle ≠ g) :
    (its.foldl advance s).registry.get? g = (s.registry.get? g).or
      ((its.findSome? (Item.name? g)).map fun name => ⟨g, name, name⟩) := by
  induction its generalizing s with
  | nil => simp
  | cons i its ih =>
    obtain ⟨hfirst, hrest⟩ := List.forall_mem_append.mp h
    have hother : (s.madeUp? i).filter (·.handle = g) = none := by
      cases hv : s.madeUp? i with
      | none => rfl
      | some v => simpa [hv, Option.filter] using hfirst v
    rw [List.foldl_cons, ih hrest, get?_advance, hother, Option.or_none, Option.or_assoc,
      List.findSome?_cons]
    cases i.name? g <;> rfl

/-- A handle to which an item gives a name is declared. -/
theorem get?_foldl_ne_none (h : its.findSome? (Item.name? g) ≠ none) :
    (its.foldl advance s).registry.get? g ≠ none := by
  induction its generalizing s with
  | nil => exact absurd rfl h
  | cons i its ih =>
    cases hn : i.name? g with
    | none =>
      rw [List.findSome?_cons, hn] at h
      exact ih h
    | some name =>
      have hfirst : (s.advance i).registry.get? g ≠ none := by
        rw [get?_advance, hn]
        cases s.registry.get? g <;> simp
      obtain ⟨v, hv⟩ := Option.ne_none_iff_exists'.mp hfirst
      rw [List.foldl_cons, get?_foldl_of_get? hv]
      exact Option.some_ne_none v

theorem exists_of_mem_madeUp (h : v ∈ s.madeUp its) :
    ∃ before i after, its = before ++ i :: after ∧
      (before.foldl advance s).madeUp? i = some v := by
  induction its generalizing s with
  | nil => cases h
  | cons i its ih =>
    rcases List.mem_append.mp h with hfirst | hrest
    · exact ⟨[], i, its, rfl, Option.mem_toList.mp hfirst⟩
    · obtain ⟨before, j, after, rfl, hj⟩ := ih hrest
      exact ⟨i :: before, j, after, rfl, hj⟩

/-- A made-up handle stays with the variable that it was made up for, and no item before has given a
name to it. -/
theorem get?_foldl_of_mem_madeUp (h : v ∈ s.madeUp its) :
    (its.foldl advance s).registry.get? v.handle = some v ∧
    (∃ n, v.handle = ⟨Fresh.name "var_" n⟩) ∧
    ∃ before i after, its = before ++ i :: after ∧ i.reference? = some v.declared ∧
      before.findSome? (Item.name? v.handle) = none := by
  obtain ⟨before, i, after, rfl, hi⟩ := exists_of_mem_madeUp h
  obtain ⟨hname, hmint, hget⟩ := eq_of_madeUp? hi
  refine ⟨?_, ⟨_, hmint⟩, before, i, after, rfl, hname, ?_⟩
  · rw [List.foldl_append, List.foldl_cons]
    exact get?_foldl_of_get? hget
  · by_contra hgiven
    refine get?_foldl_ne_none (s := s) hgiven ?_
    rw [hmint]
    exact Registry.get?_eq_none_iff.mpr (Registry.mint_not_mem _)

end Reading

/-! ### The items of a document -/

theorem findSome?_name?_eq_none_iff {its : List Item} {g : Handle} :
    its.findSome? (Item.name? g) = none ↔ givenName? its g = none := by
  simp only [givenName?, Option.or_eq_none_iff, List.findSome?_eq_none_iff, Item.name?]
  exact ⟨fun h => ⟨fun i hi => (h i hi).1, fun i hi => (h i hi).2⟩,
    fun h i hi => ⟨h.1 i hi, h.2 i hi⟩⟩

/-- If the variables are listed before all fields, then the first item that gives a name to a handle
gives it the name that the document gives to it. -/
theorem findSome?_name? {g : Handle} {first rest : List Item}
    (hfirst : ∀ i ∈ first, i.fieldName? g = none) (hrest : ∀ i ∈ rest, i.listedName? g = none) :
    (first ++ rest).findSome? (Item.name? g) = givenName? (first ++ rest) g := by
  induction first with
  | nil =>
    rw [List.nil_append, givenName?, List.findSome?_eq_none_iff.mpr hrest, Option.none_or]
    induction rest with
    | nil => rfl
    | cons i rest ih =>
      obtain ⟨hi, hrest⟩ := List.forall_mem_cons.mp hrest
      rw [List.findSome?_cons, List.findSome?_cons, Item.name?, hi, Option.none_or, ih hrest]
  | cons i first ih =>
    obtain ⟨hi, hfirst⟩ := List.forall_mem_cons.mp hfirst
    have htail := ih hfirst
    rw [givenName?] at htail ⊢
    rw [List.cons_append, List.findSome?_cons, List.findSome?_cons, List.findSome?_cons,
      Item.name?, hi, Option.or_none, htail]
    cases i.listedName? g <;> rfl

/-- Below a block element no variable is listed. -/
theorem listedName?_childItems (g : Handle) (c : Xml.Content Xml.Tag) :
    (∀ kind, ∀ i ∈ childItems kind c, i.listedName? g = none) ∧
      ∀ i ∈ slotItems c, i.listedName? g = none := by
  induction c with
  | nil => exact ⟨fun _ _ hi => absurd hi List.not_mem_nil, fun _ hi => absurd hi List.not_mem_nil⟩
  | text _ rest ih | quoted _ rest ih | comment _ rest ih | instruction _ _ rest ih => exact ih
  | element t content rest ihc ihr =>
    constructor
    · intro kind
      rw [childItems]
      split
      · exact List.forall_mem_cons.mpr ⟨rfl, ihr.1 kind⟩
      · split
        · exact ihr.1 kind
        · exact List.forall_mem_cons.mpr ⟨rfl, List.forall_mem_append.mpr ⟨ihc.2, ihr.1 kind⟩⟩
    · rw [slotItems]
      split
      · exact List.forall_mem_cons.mpr ⟨rfl, ihc.1 _⟩
      · exact ihr.2

theorem findSome?_name?_items (g : Handle) (c : Xml.Content Xml.Tag) :
    (items c).findSome? (Item.name? g) = givenName? (items c) g := by
  refine findSome?_name? (fun i hi => ?_) fun i hi => ?_
  · obtain ⟨e, -, rfl⟩ := List.mem_map.mp hi
    rfl
  · obtain ⟨e, -, hi⟩ := List.mem_flatMap.mp hi
    rcases List.mem_cons.mp hi with rfl | hi
    · rfl
    · exact (listedName?_childItems g e.2).1 _ i hi

/-! ### The variables of a document -/

/-- The variables of a document that is read are those that its items come to. -/
theorem registry_of_read {text : String} {w : Workspace} {its : List Item} (h : read text = .ok w)
    (hits : items? text = some its) :
    w.registry = (its.foldl Reading.advance .start).registry := by
  have hread := read_eq_foldlM hits
  rw [h] at hread
  cases hrun : its.foldlM Reading.accept .start with
  | error e =>
    rw [hrun] at hread
    cases hread
  | ok s =>
    rw [hrun] at hread
    rw [← Reading.eq_foldl_of_foldlM hrun]
    exact Except.ok.inj hread

/-- **The variables of a document keep the names that it gives to them**, those with made-up handles
aside: a handle that is not made up is declared with the text of the first listed variable that has
it, or else with the text of the first field that has it and has a text, or else not at all. A
made-up handle is declared with the name that it was made up for, and is a numbered one that was given
no name before that in the document. -/
theorem declared_of_read {text : String} {w : Workspace} (h : read text = .ok w) :
    ∃ its, items? text = some its ∧
      (∀ g, (∀ v ∈ Reading.start.madeUp its, v.handle ≠ g) →
        w.registry.get? g = (givenName? its g).map fun name => ⟨g, name, name⟩) ∧
      ∀ v ∈ Reading.start.madeUp its,
        w.registry.get? v.handle = some v ∧ (∃ n, v.handle = ⟨Fresh.name "var_" n⟩) ∧
        ∃ before i after, its = before ++ i :: after ∧ i.reference? = some v.declared ∧
          givenName? before v.handle = none := by
  obtain ⟨its, hits⟩ := exists_items?_of_read h
  obtain ⟨tag, content, -, -, hcontent⟩ := items?_eq_some hits
  rw [registry_of_read h hits]
  refine ⟨its, hits, fun g hg => ?_, fun v hv => ?_⟩
  · rw [Reading.get?_foldl hg, ← hcontent, findSome?_name?_items]
    rfl
  · obtain ⟨hget, hnumber, before, i, after, hsplit, hname, hgiven⟩ :=
      Reading.get?_foldl_of_mem_madeUp hv
    exact ⟨hget, hnumber, before, i, after, hsplit, hname,
      findSome?_name?_eq_none_iff.mp hgiven⟩

/-- A handle that is listed and also has a field with another text, after a variable that is listed
without a handle. -/
theorem declared_of_read_listed :
    let text := "<xml><variables><variable>v w</variable><variable id=\"a\">y</variable></variables>" ++
      "<block type=\"t\"><field name=\"F\" id=\"a\">z</field></block></xml>"
    ∃ w, read text = .ok w ∧ w.registry.get? ⟨"a"⟩ = some ⟨⟨"a"⟩, "y", "y"⟩ ∧
      w.registry.get? ⟨"b"⟩ = none ∧
      w.registry.get? ⟨"var_1"⟩ = some ⟨⟨"var_1"⟩, "v w", "v_w"⟩ := by
  intro text
  let its : List Item := [.listed none "v w", .listed (some "a") "y",
    .block ⟨"block", some "t", none⟩, .field (.unknown "t") (some "F") (some "a") "z"]
  have hits : items? text = some its := by decide +kernel
  obtain ⟨w, hw⟩ := (exists_read_iff hits).mpr ⟨_, rfl⟩
  obtain ⟨its', hits', hgiven, hmade⟩ := declared_of_read hw
  obtain rfl : its' = its := Option.some.inj (hits'.symm.trans hits)
  have hv : Reading.start.madeUp its = [⟨⟨"var_1"⟩, "v w", "v_w"⟩] := by decide +kernel
  refine ⟨w, hw, ?_, ?_, ?_⟩
  · exact hgiven ⟨"a"⟩ (by rw [hv]; decide)
  · exact hgiven ⟨"b"⟩ (by rw [hv]; decide)
  · exact (hmade ⟨⟨"var_1"⟩, "v w", "v_w"⟩ (by rw [hv]; decide)).1

/-- A listed variable is lost: its handle was made up for the one listed before. -/
theorem lost_declaration :
    let text := "<xml><variables><variable>foo</variable><variable id=\"var_1\">bar</variable>" ++
      "</variables></xml>"
    let its : List Item := [.listed none "foo", .listed (some "var_1") "bar"]
    items? text = some its ∧ givenName? its ⟨"var_1"⟩ = some "bar" ∧
      ∃ w, read text = .ok w ∧ w.registry.vars = [⟨⟨"var_1"⟩, "foo", "foo"⟩] := by
  intro text its
  have hits : items? text = some its := by decide +kernel
  obtain ⟨w, hw⟩ := (exists_read_iff hits).mpr ⟨_, rfl⟩
  refine ⟨hits, rfl, w, hw, ?_⟩
  rw [registry_of_read hw hits]
  decide +kernel

end BlockProgram.Document
