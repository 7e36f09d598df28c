import BlockProgram.Proofs.Workspace.Clearing

/-!
# What a change can do

For every change of a canvas, the ways in which it can end: refused, or with a canvas of a
certain form. Whatever registries keep is kept by every change, refused or not.
-/

namespace BlockProgram

/-- A block of a variable kind does not give its variable by name. -/
def Node.Bound (n : Node) : Prop := n.kind.hasVariable → n.text? variableField = none

theorem Node.Bound.mapHandle {n : Node} (h : n.Bound) (ρ : Handle → Handle) :
    (n.mapHandle ρ).Bound := by
  intro hk
  rw [Node.text?_mapHandle]
  exact h hk

/-- A setting of a block may be given a value that does not name a variable. -/
theorem Node.Bound.insert {n : Node} (hn : n.Bound) {name : String} {value : Field}
    (hvalue : n.kind.hasVariable → name = variableField → value.text? = none) :
    Node.Bound { n with fields := n.fields.insert name value } := by
  intro hk
  rw [Node.text?]
  by_cases hname : name = variableField
  · subst hname
    rw [Fields.get?_insert_self]
    exact hvalue hk rfl
  · rw [Fields.get?_insert_of_ne value (Ne.symm hname)]
    exact hn hk

/-- The kind of a block is named by a tag. -/
def Node.Tagged (n : Node) : Prop := ∃ tag, n.kind = .ofTag tag

namespace Workspace

/-! ### Adding -/

/-- Identities that pass the test are distinct and none of them is taken. -/
theorem firstRepeated?_eq_none {taken : BlockId → Bool} {seen ids : List BlockId}
    (h : firstRepeated? taken seen ids = none) :
    ids.Nodup ∧ ∀ id ∈ ids, id ∉ seen ∧ taken id = false := by
  induction ids generalizing seen with
  | nil => exact ⟨List.nodup_nil, fun _ hid => absurd hid List.not_mem_nil⟩
  | cons id ids ih =>
    rw [firstRepeated?] at h
    split at h
    · cases h
    · rename_i hfree
      simp only [Bool.or_eq_true, List.contains_iff_mem, not_or, Bool.not_eq_true] at hfree
      obtain ⟨hnodup, hall⟩ := ih h
      refine ⟨List.nodup_cons.mpr ⟨fun hmem => (hall id hmem).1 List.mem_cons_self, hnodup⟩, ?_⟩
      rintro other (_ | ⟨_, hother⟩)
      · exact hfree
      · exact ⟨fun hseen => (hall other hother).1 (List.mem_cons_of_mem _ hseen),
          (hall other hother).2⟩

section BindNode

variable (n : Node) (r : Registry)

/-- Binding leaves a block as it is, or gives it the handle of its variable. -/
theorem bindNode_cases :
    (n.Bound ∧ bindNode n r = (n, r)) ∨
    ∃ name, bindNode n r =
      ({ n with fields := n.fields.insert variableField (.var (r.bind name).1) },
        (r.bind name).2) := by
  rw [bindNode]
  split
  · rename_i hk
    split
    · rename_i name _
      exact .inr ⟨name, rfl⟩
    · rename_i hname
      refine .inl ⟨fun _ => ?_, rfl⟩
      rw [Node.text?]
      cases hf : n.fields.get? variableField with
      | none => rfl
      | some f =>
        cases f with
        | text s => exact absurd hf (hname s)
        | var h => rfl
  · rename_i hk
    exact .inl ⟨fun h => absurd h hk, rfl⟩

theorem id_bindNode : (bindNode n r).1.id = n.id := by
  rcases bindNode_cases n r with ⟨-, h⟩ | ⟨name, h⟩ <;> rw [h]

theorem kind_bindNode : (bindNode n r).1.kind = n.kind := by
  rcases bindNode_cases n r with ⟨-, h⟩ | ⟨name, h⟩ <;> rw [h]

theorem bound_bindNode : (bindNode n r).1.Bound := by
  rcases bindNode_cases n r with ⟨hb, h⟩ | ⟨name, h⟩
  · rwa [h]
  · rw [h]
    intro _
    rw [Node.text?, Fields.get?_insert_self]
    rfl

theorem sorted_bindNode (hn : n.fields.Sorted) : (bindNode n r).1.fields.Sorted := by
  rcases bindNode_cases n r with ⟨-, h⟩ | ⟨name, h⟩
  · rwa [h]
  · rw [h]
    exact hn.insert _ _

theorem registry_bindNode {I : Registry → Prop} (hI : Registry.Kept I) (hr : I r) :
    I (bindNode n r).2 := by
  rcases bindNode_cases n r with ⟨-, h⟩ | ⟨name, h⟩
  · rwa [h]
  · rw [h]
    exact hI.bind hr name

end BindNode

/-- Adding is refused, or puts the chain with its names bound at the end. -/
theorem add_cases (w : Workspace) (b : Block) (position : Option Position) :
    (∃ e, w.add b position = (.error e, w)) ∨
    (firstRepeated? (fun id => (w.find? id).isSome) [] b.ids = none ∧
      w.add b position = (.ok (),
        { w with
          top := w.top ++ [⟨(b.mapState bindNode w.registry).1, position⟩]
          registry := (b.mapState bindNode w.registry).2 })) := by
  rw [add]
  cases h : firstRepeated? (fun id => (w.find? id).isSome) [] b.ids with
  | some id => exact .inl ⟨_, rfl⟩
  | none => exact .inr ⟨rfl, rfl⟩

/-! ### Removing -/

/-- Removing is refused, or takes a block off. -/
theorem remove_cases (w : Workspace) (id : BlockId) :
    (∃ e, w.remove id = (.error e, w)) ∨
    ∃ b top, take? .alone id w.top = some (b, top) ∧
      w.remove id = (.ok b, { w with top := top }) := by
  rw [remove]
  cases h : take? .alone id w.top with
  | none => exact .inl ⟨_, rfl⟩
  | some p => exact .inr ⟨p.1, p.2, rfl, rfl⟩

/-! ### Settings -/

/-- The value that a setting of a block of a kind takes on, and the variables after that: a variable
that is given by name is bound. -/
def taking (r : Registry) (kind : Kind) (name : String) (value : Field) : Field × Registry :=
  match value with
  | .text s =>
    if kind.hasVariable && name = variableField then (.var (r.bind s).1, (r.bind s).2)
    else (value, r)
  | .var _ => (value, r)

theorem setField_eq {w : Workspace} {id : BlockId} {c : Block} (hc : w.find? id = some c)
    (name : String) (value : Field) :
    w.setField id name value = (.ok (),
      { w with
        top := (updateTop? id (Block.setField · name (taking w.registry c.kind name value).1)
          w.top).getD w.top
        registry := (taking w.registry c.kind name value).2 }) := by
  rw [setField, hc]
  cases value with
  | var h => rfl
  | text s => by_cases h : c.kind.hasVariable && name = variableField <;> simp [taking, h]

/-- Giving a value is refused, or changes one setting of the block found: to the value given, or
to the variable of a name. -/
theorem setField_cases (w : Workspace) (id : BlockId) (name : String) (value : Field) :
    (∃ e, w.setField id name value = (.error e, w)) ∨
    ∃ b value' r, w.find? id = some b ∧
      (b.kind.hasVariable → name = variableField → value'.text? = none) ∧
      (r = w.registry ∨ ∃ s, r = (w.registry.bind s).2) ∧
      w.setField id name value = (.ok (),
        { w with
          top := (updateTop? id (Block.setField · name value') w.top).getD w.top
          registry := r }) := by
  cases hb : w.find? id with
  | none => exact .inl ⟨_, by rw [setField, hb]⟩
  | some b =>
    refine .inr ⟨b, _, _, rfl, ?_, ?_, setField_eq hb name value⟩
    · cases value with
      | var h => exact fun _ _ => rfl
      | text s =>
        intro hkind hname
        simp [taking, hkind, hname, Field.text?]
    · cases value with
      | var h => exact .inl rfl
      | text s =>
        rw [taking]
        split
        · exact .inr ⟨s, rfl⟩
        · exact .inl rfl

/-! ### Variables -/

/-- Renaming is refused, gives the variable its new name, or puts another variable in its place
everywhere. -/
theorem renameVariable_cases (w : Workspace) (h : Handle) (name : String) :
    (∃ e, w.renameVariable h name = (.error e, w)) ∨
    ∃ holder r, w.registry.rename h name = some (holder, r) ∧
      (w.renameVariable h name = (.ok holder, { w with registry := r }) ∨
        w.renameVariable h name = (.ok holder,
          { w.mapBlocks (Block.redirect h holder) with registry := r.remove h })) := by
  rw [renameVariable]
  cases hr : w.registry.rename h name with
  | none => exact .inl ⟨_, rfl⟩
  | some p =>
    obtain ⟨holder, r⟩ := p
    refine .inr ⟨holder, r, rfl, ?_⟩
    by_cases hh : holder = h
    · exact .inl (by simp only [hh, if_true])
    · exact .inr (by simp only [hh, if_false])

/-- Deleting a variable is refused, or takes blocks off and removes the variable. -/
theorem deleteVariable_cases {w : Workspace} (hw : w.Ordered) (h : Handle) :
    (∃ e, w.deleteVariable h = (.error e, w)) ∨
    ∃ top, w.deleteVariable h = (.ok (), { w with top := top, registry := w.registry.remove h }) ∧
      (topNodes top).Subperm w.nodes ∧ ∀ t ∈ top, t.block.Ordered := by
  cases hdeclared : w.registry.declares h with
  | false => exact .inl ⟨.unknownVariable h, by rw [deleteVariable, hdeclared]; rfl⟩
  | true =>
    obtain ⟨rounds, w', hc, -, heq⟩ := exists_deleteVariable hdeclared
    exact .inr ⟨w'.top, by rw [heq, hc.eq_top], hc.subperm_nodes, hc.ordered hw⟩

/-! ### Migration -/

/-- A step of migration only puts other handles into the settings. -/
theorem exists_blocks_step (m : Migration) (old : Variable) (index : Nat) :
    ∃ ρ : Handle → Handle,
      (m.step old index).blocks = m.blocks.map (Block.map (Node.mapHandle ρ)) := by
  rcases m.step_cases old index with ⟨-, -, h⟩ | ⟨v, -, h⟩ | ⟨-, -, h⟩
  · refine ⟨fun h => h, ?_⟩
    rw [h, Block.map_mapHandle_id, List.map_id']
  · rw [h]
    exact ⟨_, rfl⟩
  · rw [h]
    exact ⟨_, rfl⟩

/-- Migration only puts other handles into the settings. -/
theorem exists_blocks_migrate (r : Registry) (blocks : List Block) :
    ∃ ρ : Handle → Handle,
      (r.migrate blocks).blocks = blocks.map (Block.map (Node.mapHandle ρ)) := by
  have hstart : blocks = blocks.map (Block.map (Node.mapHandle fun h => h)) := by
    rw [Block.map_mapHandle_id, List.map_id']
  refine Migration.run_of_step (I := fun m _ => ∃ ρ : Handle → Handle,
    m.blocks = blocks.map (Block.map (Node.mapHandle ρ))) ?_ ⟨_, hstart⟩
  rintro m old index rest ⟨ρ, hρ⟩
  obtain ⟨τ, hτ⟩ := exists_blocks_step m old index
  refine ⟨fun h => τ (ρ h), ?_⟩
  rw [hτ, hρ, List.map_map]
  refine List.map_congr_left fun b _ => ?_
  simp only [Function.comp, Block.map_map, Node.mapHandle_mapHandle]

/-! ### What registries keep -/

section Kept

variable {I : Registry → Prop} (hI : Registry.Kept I) {w : Workspace} (hw : I w.registry)
include hI hw

theorem registry_add (b : Block) (position : Option Position) :
    I (w.add b position).2.registry := by
  rcases add_cases w b position with ⟨e, h⟩ | ⟨-, h⟩
  · rwa [h]
  · rw [h]
    exact Block.mapState_keeps (fun n r hr => registry_bindNode n r hI hr) b hw

omit hI in
theorem registry_attach (chain : Block) (previous : Option Position) (target : BlockId)
    (slot : Slot) : I (w.attach chain previous target slot).2.registry := by
  rw [attach]
  split <;> exact hw

omit hI in
theorem registry_move (id : BlockId) (placement : Placement) :
    I (w.move id placement).2.registry := by
  rw [move]
  split
  · exact hw
  · split
    · exact hw
    · split
      · exact hw
      · rename_i chain top _
        cases placement with
        | canvas position => exact hw
        | slot target slot =>
          exact registry_attach (w := { w with top := top }) hw chain (w.positionOf id) target slot

omit hI in
theorem registry_remove (id : BlockId) : I (w.remove id).2.registry := by
  rcases remove_cases w id with ⟨e, h⟩ | ⟨b, top, -, h⟩
  · rwa [h]
  · rwa [h]

theorem registry_setField (id : BlockId) (name : String) (value : Field) :
    I (w.setField id name value).2.registry := by
  rcases setField_cases w id name value with ⟨e, h⟩ | ⟨b, value', r, -, -, rfl | ⟨s, rfl⟩, h⟩
  · rwa [h]
  · rwa [h]
  · rw [h]
    exact hI.bind hw s

theorem registry_renameVariable (h : Handle) (name : String) :
    I (w.renameVariable h name).2.registry := by
  rcases renameVariable_cases w h name with ⟨e, heq⟩ | ⟨holder, r, hr, heq | heq⟩
  · rwa [heq]
  · rw [heq]
    exact hI.rename hw hr
  · rw [heq]
    exact hI.remove (hI.rename hw hr) h

theorem registry_deleteVariable (h : Handle) : I (w.deleteVariable h).2.registry := by
  rw [deleteVariable]
  split
  · split
    · exact hI.remove hw h
    · exact hw
  · exact hw

end Kept

end Workspace

end BlockProgram
