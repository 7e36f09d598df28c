import BlockProgram.Proofs.Document.Legible
import BlockProgram.Proofs.Document.Read
import BlockProgram.Proofs.Workspace.Capture
import BlockProgram.Proofs.Xml.Texts

/-!
# What is read is legible

Every string on a canvas that is read from a document is a text that a document may hold. Strings
come from the document itself, or they are made up: identities and handles from a stem and a number,
and names from the characters of identifiers. Migration puts nothing else on a canvas, so that a
canvas that has been read can always be written and read again.
-/

namespace BlockProgram

open Xml

/-! ### Strings that are made up -/

theorem isText_of_isIdentifier {name : String} (h : Identifier.isIdentifier name) :
    isText name := by
  have htail : ∀ c, Identifier.isTail c → isChar c := by
    intro c hc
    cases hdigit : c.isDigit with
    | true => exact isChar_of_isDigit hdigit
    | false =>
      rcases Identifier.isHead_iff.mp (Identifier.isHead_of_isTail hc hdigit) with
        ⟨hlow, hhigh⟩ | ⟨hlow, hhigh⟩ | rfl
      · have hlow : 65 ≤ c.toNat := hlow
        have hhigh : c.toNat ≤ 90 := hhigh
        simp only [isChar, Bool.or_eq_true, Bool.and_eq_true, beq_iff_eq, decide_eq_true_eq]
        omega
      · have hlow : 97 ≤ c.toNat := hlow
        have hhigh : c.toNat ≤ 122 := hhigh
        simp only [isChar, Bool.or_eq_true, Bool.and_eq_true, beq_iff_eq, decide_eq_true_eq]
        omega
      · decide
  exact List.all_eq_true.mpr fun c hc => htail c (Identifier.isTail_of_isIdentifier h c hc)

theorem isText_fresh {stem : String} (hstem : isText stem) (n : Nat) :
    isText (Fresh.name stem n) := by
  rw [Fresh.name, isText_append, hstem, Nat.toString_eq_repr, isText_repr]
  rfl

/-! ### Variables -/

/-- The handles and the names of the variables are texts. -/
def Registry.Legible (r : Registry) : Prop :=
  ∀ v ∈ r.vars, isText v.handle.text ∧ isText v.resolved

namespace Registry.Legible

variable {r : Registry}

theorem push (hr : r.Legible) {v : Variable} (hhandle : isText v.handle.text)
    (hname : isText v.resolved) : (r.push v).Legible :=
  List.forall_mem_append.mpr ⟨hr, List.forall_mem_singleton.mpr ⟨hhandle, hname⟩⟩

theorem declare (hr : r.Legible) {h : Handle} (hh : isText h.text) {name : String}
    (hname : isText name) : (r.declare h name).Legible := by
  rw [Registry.declare]
  split
  · exact hr
  · exact hr.push hh hname

/-- A name that is admitted becomes an identifier, whatever its characters. -/
theorem register (hr : r.Legible) (name : String) : (r.register name).2.Legible := by
  rcases register_cases r name with ⟨v, -, h⟩ | ⟨-, h⟩
  · rw [h]
    exact hr
  · rw [h]
    exact Legible.push (r := r.mint.2) hr (isText_fresh (by decide) _)
      (isText_of_isIdentifier (Identifier.isIdentifier_sanitize _ _))

theorem bind (hr : r.Legible) (name : String) : (r.bind name).2.Legible := by
  rcases bind_cases r name with ⟨v, -, h⟩ | h
  · rw [h]
    exact hr
  · rw [h]
    exact hr.register name

theorem handle_bind (hr : r.Legible) (name : String) : isText (r.bind name).1.text := by
  obtain ⟨v, hv, heq⟩ := mem_handles.mp (r.bind_mem name)
  rw [← heq]
  exact (hr.bind name v hv).1

end Registry.Legible

/-! ### Blocks -/

/-- The strings of a block are texts, its slots aside. -/
structure Node.Legible (n : Node) : Prop where
  /-- The tag of its kind is a text. -/
  tag : isText n.kind.tag
  /-- The identity is a text. -/
  id : isText n.id.text
  /-- The names of its settings and what they hold are texts. -/
  fields : ∀ e ∈ n.fields.entries, isText e.1 ∧ isText e.2.string

theorem Node.Legible.insert {n : Node} (hn : n.Legible) {name : String} (hname : isText name)
    {value : Field} (hvalue : isText value.string) :
    Node.Legible { n with fields := n.fields.insert name value } := by
  refine ⟨hn.tag, hn.id, fun e he => ?_⟩
  rcases Fields.mem_insertEntry he with rfl | he
  · exact ⟨hname, hvalue⟩
  · exact hn.fields e he

/-- All strings of a forest are texts. -/
def Children.Legible : Children → Prop
  | .nil => True
  | .cons slot n below rest =>
    (∀ name ∈ slot.name?, isText name) ∧ n.Legible ∧ below.Legible ∧ rest.Legible

theorem Children.Legible.insert {cs : Children} (hcs : cs.Legible) {slot : Slot}
    (hslot : ∀ name ∈ slot.name?, isText name) {b : Block} (hn : b.node.Legible)
    (hbelow : b.children.Legible) : (cs.insert slot b).Legible := by
  induction cs with
  | nil => exact ⟨hslot, hn, hbelow, trivial⟩
  | cons s m below rest _ ih =>
    rw [Children.insert]
    split
    · exact ⟨hslot, hn, hbelow, hcs⟩
    · split
      · exact ⟨hslot, hn, hbelow, hcs.2.2.2⟩
      · exact ⟨hcs.1, hcs.2.1, hcs.2.2.1, ih hcs.2.2.2⟩

theorem Children.Legible.slots {cs : Children} (hcs : cs.Legible) :
    ∀ slot ∈ cs.slots, ∀ name ∈ slot.name?, isText name := by
  induction cs with
  | nil => exact fun slot hslot => absurd hslot List.not_mem_nil
  | cons s n below rest _ ih => exact List.forall_mem_cons.mpr ⟨hcs.1, ih hcs.2.2.2⟩

theorem Children.Legible.walk {cs : Children} (hcs : cs.Legible) : ∀ b ∈ cs.walk, b.Legible := by
  induction cs with
  | nil => exact fun b hb => absurd hb List.not_mem_nil
  | cons s n below rest ihb ihr =>
    obtain ⟨-, hn, hbelow, hrest⟩ := hcs
    exact List.forall_mem_cons.mpr ⟨⟨hn.tag, hn.id, hn.fields, hbelow.slots⟩,
      List.forall_mem_append.mpr ⟨ihb hbelow, ihr hrest⟩⟩

/-- All strings of a tree are texts. -/
def Block.AllLegible (b : Block) : Prop := b.node.Legible ∧ b.children.Legible

theorem Block.AllLegible.walk {b : Block} (hb : b.AllLegible) : ∀ c ∈ b.walk, c.Legible :=
  List.forall_mem_cons.mpr ⟨⟨hb.1.tag, hb.1.id, hb.1.fields, hb.2.slots⟩, hb.2.walk⟩

/-! ### Outlines -/

namespace Document

/-- The tag and the identity are texts. -/
def Head.Legible (h : Head) : Prop := (∀ s ∈ h.type?, isText s) ∧ ∀ s ∈ h.id?, isText s

/-- All that becomes a string of a block is a text. -/
def Parts.Legible : Parts → Prop
  | .nil => True
  | .field name? handle? text rest =>
    (∀ s ∈ name?, isText s) ∧ (∀ s ∈ handle?, isText s) ∧ isText text ∧ rest.Legible
  | .vacant _ _ rest => rest.Legible
  | .filled _ name? head below rest =>
    (∀ s ∈ name?, isText s) ∧ head.Legible ∧ below.Legible ∧ rest.Legible

/-- All that becomes a string of a tree is a text. -/
def BlockElement.Legible (e : BlockElement) : Prop := e.head.Legible ∧ e.parts.Legible

theorem Head.legible_ofTag {t : Tag} (ht : t.Legible) : (Head.ofTag t).Legible :=
  ⟨fun _ hs => ht.get? hs, fun _ hs => ht.get? hs⟩

theorem Parts.Legible.slotPart {slot : SlotElement} {name? : Option String}
    (hname : ∀ s ∈ name?, isText s) {filling : Option BlockElement}
    (hfilling : ∀ b ∈ filling, b.Legible) {rest : Parts} (hrest : rest.Legible) :
    (slotPart slot name? filling rest).Legible := by
  cases filling with
  | none => exact hrest
  | some b => exact ⟨hname, (hfilling b rfl).1, (hfilling b rfl).2, hrest⟩

/-- The outline of a block element that is legible. -/
theorem legible_parts {x : Content Tag} (hx : x.Legible Tag.Legible) :
    (parts x).Legible ∧ ∀ b ∈ filling x, b.Legible := by
  induction x with
  | nil => exact ⟨trivial, fun b hb => by cases hb⟩
  | text cs rest ih => exact ih hx.2
  | quoted cs rest ih => exact ih hx.2
  | comment body rest ih => exact ih hx
  | instruction target body rest ih => exact ih hx
  | element t content rest ihc ihr =>
    obtain ⟨ht, hcontent, hrest⟩ := hx
    obtain ⟨hparts, hfilling⟩ := ihc hcontent
    obtain ⟨hparts', hfilling'⟩ := ihr hrest
    have hname : ∀ s ∈ t.get? "name", isText s := fun s hs => ht.get? hs
    have hself : BlockElement.Legible ⟨Head.ofTag t, parts content⟩ :=
      ⟨Head.legible_ofTag ht, hparts⟩
    constructor
    · rw [parts]
      split
      · exact ⟨hname, fun s hs => ht.get? hs, hcontent.isText_chars, hparts'⟩
      · split
        · exact .slotPart hname hfilling hparts'
        · split
          · exact .slotPart hname hfilling hparts'
          · split
            · exact .slotPart hname hfilling hparts'
            · exact hparts'
    · intro b hb
      rw [filling] at hb
      split at hb
      · cases hb
        exact hself
      · split at hb
        · split at hb
          · rename_i c hc
            split at hb
            · cases hb
              exact hfilling' _ hc
            · cases hb
              exact hself
          · cases hb
            exact hself
        · exact hfilling' b hb

theorem legible_topElements {x : Content Tag} (hx : x.Legible Tag.Legible) :
    ∀ e ∈ topElements x, e.block.Legible := by
  induction x with
  | nil => exact fun e he => absurd he List.not_mem_nil
  | text cs rest ih => exact ih hx.2
  | quoted cs rest ih => exact ih hx.2
  | comment body rest ih => exact ih hx
  | instruction target body rest ih => exact ih hx
  | element t content rest _ ih =>
    obtain ⟨ht, hcontent, hrest⟩ := hx
    rw [topElements]
    split
    · exact List.forall_mem_cons.mpr
        ⟨⟨Head.legible_ofTag ht, (legible_parts hcontent).1⟩, ih hrest⟩
    · exact ih hrest

/-- The handle and the name of a listed variable are texts. -/
def VariableElement.Legible (v : VariableElement) : Prop :=
  (∀ s ∈ v.handle?, isText s) ∧ isText v.name

theorem legible_listedVariables {x : Content Tag} (hx : x.Legible Tag.Legible) :
    ∀ v ∈ listedVariables x, v.Legible := by
  induction x with
  | nil => exact fun v hv => absurd hv List.not_mem_nil
  | text cs rest ih => exact ih hx.2
  | quoted cs rest ih => exact ih hx.2
  | comment body rest ih => exact ih hx
  | instruction target body rest ih => exact ih hx
  | element t content rest _ ih =>
    obtain ⟨ht, hcontent, hrest⟩ := hx
    rw [listedVariables]
    split
    · exact List.forall_mem_cons.mpr
        ⟨⟨fun s hs => ht.get? hs, hcontent.isText_chars⟩, ih hrest⟩
    · exact ih hrest

theorem legible_firstVariables {x : Content Tag} (hx : x.Legible Tag.Legible) :
    ∀ v ∈ firstVariables x, v.Legible := by
  induction x with
  | nil => exact fun v hv => absurd hv List.not_mem_nil
  | text cs rest ih => exact ih hx.2
  | quoted cs rest ih => exact ih hx.2
  | comment body rest ih => exact ih hx
  | instruction target body rest ih => exact ih hx
  | element t content rest _ ih =>
    rw [firstVariables]
    split
    · exact legible_listedVariables hx.2.1
    · exact ih hx.2.2

/-! ### Reading -/

/-- A listed variable is taken in with its strings. -/
theorem Reading.legible_listed {s : Reading} (hs : s.registry.Legible) {v : VariableElement}
    (hv : v.Legible) : (s.listed v).registry.Legible := by
  obtain ⟨handle?, name⟩ := v
  cases handle? with
  | some h => exact hs.declare (hv.1 h rfl) hv.2
  | none => exact hs.register name

/-- A setting holds a text of the document, or the handle of a variable. -/
theorem Reading.legible_field {s : Reading} (hs : s.registry.Legible) (kind : Kind) (name : String)
    {handle? : Option String} (hhandle : ∀ h ∈ handle?, isText h) {text : String}
    (htext : isText text) :
    isText (s.field kind name handle? text).1.string ∧
      (s.field kind name handle? text).2.registry.Legible := by
  cases handle? with
  | some h =>
    have hh := hhandle h rfl
    rw [field]
    split
    · exact ⟨hh, hs⟩
    · exact ⟨hh, hs.declare hh htext⟩
  | none =>
    rw [field]
    split
    · exact ⟨hs.handle_bind text, hs.bind text⟩
    · exact ⟨htext, hs⟩

/-- A block begins with an identity of the document, or with one that is made up. -/
theorem Reading.legible_head {s s' : Reading} {h : Head} (hh : h.Legible) {n : Node}
    (hn : s.head h = .ok (n, s')) : n.Legible ∧ s'.registry = s.registry := by
  have hfields : ∀ e ∈ Fields.empty.entries, isText e.1 ∧ isText e.2.string :=
    fun e he => absurd he List.not_mem_nil
  obtain ⟨element, type?, id?⟩ := h
  cases type? with
  | none => cases hn
  | some tag =>
    have htag : isText (Kind.ofTag tag).tag := by
      rw [Kind.tag_ofTag]
      exact hh.1 tag rfl
    cases id? with
    | none =>
      cases hn
      exact ⟨⟨htag, isText_fresh (by decide) _, hfields⟩, rfl⟩
    | some text =>
      rw [head] at hn
      dsimp only at hn
      split at hn
      · cases hn
      · cases hn
        exact ⟨⟨htag, hh.2 text rfl, hfields⟩, rfl⟩

theorem name?_of_slotOf {slot : SlotElement} {name? : Option String} {s : Slot}
    (hname : ∀ t ∈ name?, isText t) (h : slotOf slot name? = .ok s) :
    ∀ t ∈ s.name?, isText t := by
  cases slot with
  | next =>
    cases h
    exact fun t ht => by cases ht
  | value =>
    cases name? with
    | none => cases h
    | some name =>
      cases h
      exact hname
  | statement =>
    cases name? with
    | none => cases h
    | some name =>
      cases h
      exact hname

/-- What is read into a block is legible, and so is what is declared on the way. -/
theorem Parts.legible_read {p : Parts} (hp : p.Legible) {b b' : Block} {s s' : Reading}
    (h : p.read b s = .ok (b', s')) (hb : b.AllLegible) (hs : s.registry.Legible) :
    b'.AllLegible ∧ s'.registry.Legible := by
  induction p generalizing b b' s s' with
  | nil =>
    cases h
    exact ⟨hb, hs⟩
  | field name? handle? text rest ih =>
    obtain ⟨hname, hhandle, htext, hrest⟩ := hp
    cases name? with
    | none => cases h
    | some name =>
      obtain ⟨hvalue, hs'⟩ := Reading.legible_field hs b.kind name hhandle htext
      exact ih hrest h ⟨hb.1.insert (hname name rfl) hvalue, hb.2⟩ hs'
  | vacant slot name? rest ih =>
    rw [read] at h
    split at h
    · cases h
    · exact ih hp h hb hs
  | filled slot name? head below rest ihb ihr =>
    obtain ⟨hname, hhead, hbelow, hrest⟩ := hp
    rw [read] at h
    split at h
    · cases h
    · rename_i slot' hslot
      split at h
      · cases h
      · rename_i n s₁ hn
        obtain ⟨hn, hregistry⟩ := Reading.legible_head hhead hn
        split at h
        · cases h
        · rename_i child s₂ hchild
          obtain ⟨hchild, hs₂⟩ := ihb hbelow hchild ⟨hn, trivial⟩ (hregistry ▸ hs)
          exact ihr hrest h ⟨hb.1, hb.2.insert (name?_of_slotOf hname hslot) hchild.1 hchild.2⟩ hs₂

theorem BlockElement.legible_read {e : BlockElement} (he : e.Legible) {b : Block} {s s' : Reading}
    (h : e.read s = .ok (b, s')) (hs : s.registry.Legible) :
    b.AllLegible ∧ s'.registry.Legible := by
  rw [read] at h
  split at h
  · cases h
  · rename_i n s₁ hn
    obtain ⟨hn, hregistry⟩ := Reading.legible_head he.1 hn
    exact Parts.legible_read he.2 h ⟨hn, trivial⟩ (hregistry ▸ hs)

theorem legible_readTop {es : List TopElement} (hes : ∀ e ∈ es, e.block.Legible)
    {top : List TopBlock} {s s' : Reading} (h : readTop es s = .ok (top, s'))
    (hs : s.registry.Legible) : (∀ t ∈ top, t.block.AllLegible) ∧ s'.registry.Legible := by
  induction es generalizing top s s' with
  | nil =>
    cases h
    exact ⟨fun t ht => absurd ht List.not_mem_nil, hs⟩
  | cons e es ih =>
    obtain ⟨he, hes⟩ := List.forall_mem_cons.mp hes
    rw [readTop] at h
    split at h
    · cases h
    · rename_i b s₁ hb
      obtain ⟨hb, hs₁⟩ := BlockElement.legible_read he hb hs
      split at h
      · cases h
      · rename_i bs s₂ hbs
        obtain ⟨htop, hs₂⟩ := ih hes hbs hs₁
        cases h
        exact ⟨List.forall_mem_cons.mpr ⟨hb, htop⟩, hs₂⟩

/-- **What is read from a document is legible**, unless the document declares the second version. -/
theorem legible_of_read {text : String} (hversion : version? text ≠ some .second) {w : Workspace}
    (h : read text = .ok w) : w.Legible := by
  rw [read] at h
  split at h
  · cases h
  · rename_i tag content hroot
    have hcontent := legible_of_root? hversion hroot
    rw [readElement] at h
    split at h
    · have hlisted : ∀ (vs : List VariableElement) (s : Reading), s.registry.Legible →
          (∀ v ∈ vs, v.Legible) → (vs.foldl Reading.listed s).registry.Legible := by
        intro vs
        induction vs with
        | nil => exact fun s hs _ => hs
        | cons v vs ih =>
          intro s hs hvs
          obtain ⟨hv, hvs⟩ := List.forall_mem_cons.mp hvs
          exact ih _ (Reading.legible_listed hs hv) hvs
      rw [Outline.read] at h
      split at h
      · cases h
      · rename_i top s htop
        cases h
        have hstart := hlisted _ .start (fun v hv => absurd hv List.not_mem_nil)
          (legible_firstVariables hcontent)
        obtain ⟨hblocks, hregistry⟩ := legible_readTop (legible_topElements hcontent) htop hstart
        refine ⟨fun b hb => ?_, hregistry⟩
        obtain ⟨t, ht, hb⟩ := List.mem_flatMap.mp hb
        exact (hblocks t ht).walk b hb
    · cases h

end Document

/-! ### Migration -/

theorem Children.walk_map (f : Node → Node) (cs : Children) :
    (cs.map f).walk = cs.walk.map (Block.map f) := by
  induction cs with
  | nil => rfl
  | cons s n below rest ihb ihr =>
    simp only [Children.map, Children.walk, List.map_cons, List.map_append, ihb, ihr]
    rfl

theorem Block.walk_map (f : Node → Node) (b : Block) :
    (b.map f).walk = b.walk.map (Block.map f) :=
  congrArg (b.map f :: ·) (Children.walk_map f b.children)

/-- The handles and names of a migrated registry are texts: a name is an identifier, and a handle is
an old one or a fresh one. -/
theorem Workspace.Legible.registry_migrate {w : Workspace} (hw : w.Legible) (hsound : w.Sound) :
    w.migrate.2.registry.Legible := by
  intro v hv
  constructor
  · rcases (w.later_call .migrate).handles v.handle (List.mem_map_of_mem hv) with hold | hnew
    · obtain ⟨u, hu, heq⟩ := Registry.mem_handles.mp hold
      rw [← heq]
      exact (hw.names u hu).1
    · obtain ⟨n, -, heq⟩ := hnew
      rw [heq]
      exact isText_fresh (by decide) n
  · exact isText_of_isIdentifier ((Registry.clean_migrate hsound.handles _).identifiers v hv)

/-- A handle on a migrated canvas is declared, or it was there before. -/
theorem Workspace.Legible.covered_migrate {w : Workspace} (hw : w.Legible) :
    w.migrate.2.Covered fun h => isText h.text := by
  refine Covered.migrate fun n hn h hh => .inr ?_
  obtain ⟨e, he, heq⟩ := Node.mem_handles.mp hh
  rw [← map_node_walk] at hn
  obtain ⟨b, hb, rfl⟩ := List.mem_map.mp hn
  have hstring := ((hw.blocks b hb).fields e he).2
  rwa [heq] at hstring

/-- **Migration keeps a canvas legible**: the handles and the names that it makes up are texts. -/
theorem Workspace.Legible.migrate {w : Workspace} (hw : w.Legible) (hsound : w.Sound) :
    w.migrate.2.Legible := by
  have hnames := hw.registry_migrate hsound
  refine ⟨fun b hb => ?_, hnames⟩
  obtain ⟨ρ, hρ⟩ := exists_blocks_migrate w.registry (w.top.map TopBlock.block)
  have hwalk : w.migrate.2.walk = w.walk.map (Block.map (Node.mapHandle ρ)) := by
    rw [walk, walk, top_migrate hρ, List.flatMap_map, List.map_flatMap]
    exact List.flatMap_congr fun t _ => Block.walk_map _ t.block
  have hnode : b.node ∈ w.migrate.2.nodes := by
    rw [← map_node_walk]
    exact List.mem_map_of_mem hb
  rw [hwalk] at hb
  obtain ⟨c, hc, rfl⟩ := List.mem_map.mp hb
  obtain ⟨htag, hid, hfields, hslots⟩ := hw.blocks c hc
  refine ⟨htag, hid, fun e he => ?_, fun slot hslot => hslots slot ?_⟩
  · obtain ⟨d, hd, rfl⟩ := List.mem_map.mp he
    refine ⟨(hfields d hd).1, ?_⟩
    cases hvalue : d.2.mapHandle ρ with
    | text s =>
      cases hd2 : d.2 with
      | text s' =>
        have hstring := (hfields d hd).2
        rw [hd2] at hstring hvalue
        cases hvalue
        exact hstring
      | var g =>
        rw [hd2] at hvalue
        cases hvalue
    | var g =>
      have hmem : g ∈ (c.node.mapHandle ρ).handles := Node.mem_handles.mpr ⟨_, he, hvalue⟩
      rcases hw.covered_migrate _ hnode g hmem with hdeclared | htext
      · obtain ⟨v, hv, rfl⟩ := Registry.mem_handles.mp hdeclared
        exact (hnames v hv).1
      · exact htext
  · rwa [Block.map, Children.slots_map] at hslot

end BlockProgram
