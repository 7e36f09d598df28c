import BlockProgram.Proofs.Code.Handles
import BlockProgram.Proofs.Workspace.History
import BlockProgram.Proofs.Workspace.Migration

/-!
# References to variables

A canvas is closed if every handle in the settings of its blocks is declared. Variables leave the
registry in three ways: one is deleted with all blocks that refer to it, one is merged into the
holder of its new name, and one is replaced by migration. Each time whatever referred to it is gone
or refers to another variable that is declared, so that no call leaves a reference behind, whatever
the identities of the blocks are.

All is said with some handles exempt, which need not be declared: no call adds to those that are
not declared, as long as its arguments do not.
-/

namespace BlockProgram

/-! ### The handles of a block -/

namespace Node

theorem mem_handles {n : Node} {h : Handle} :
    h ∈ n.handles ↔ ∃ e ∈ n.fields.entries, e.2 = .var h := by
  have hfield : ∀ f : Field, f.handle? = some h ↔ f = .var h := by
    intro f
    cases f <;> simp [Field.handle?]
  simp only [handles, List.mem_filterMap, hfield]

theorem handles_mapHandle (ρ : Handle → Handle) (n : Node) :
    (n.mapHandle ρ).handles = n.handles.map ρ := by
  have hfield : ∀ f : Field, (f.mapHandle ρ).handle? = f.handle?.map ρ := by
    intro f
    cases f <;> rfl
  simp only [handles, mapHandle, Fields.mapValues, List.filterMap_map, List.map_filterMap]
  exact List.filterMap_congr fun e _ => hfield e.2

/-- A setting that is given a value brings no handle but that of the value. -/
theorem mem_handles_insert {n : Node} {name : String} {value : Field} {h : Handle}
    (hh : h ∈ Node.handles { n with fields := n.fields.insert name value }) :
    value = .var h ∨ h ∈ n.handles := by
  obtain ⟨e, he, heh⟩ := mem_handles.mp hh
  rcases Fields.mem_insertEntry he with rfl | he
  · exact .inl heh
  · exact .inr (mem_handles.mpr ⟨e, he, heh⟩)

end Node

theorem Block.mentions_iff {b : Block} {h : Handle} : b.mentions h ↔ h ∈ b.node.handles := by
  simp [mentions, Fields.mentions, Node.mem_handles]

/-! ### The handles of a registry -/

namespace Registry

theorem handles_subset_register (r : Registry) (name : String) :
    r.handles ⊆ (r.register name).2.handles := by
  rcases register_cases r name with ⟨v, -, h⟩ | ⟨-, h⟩
  · rw [h]
    exact List.Subset.refl _
  · rw [h, handles_push]
    exact List.subset_append_left _ _

theorem register_mem (r : Registry) (name : String) :
    (r.register name).1 ∈ (r.register name).2.handles := by
  rcases register_cases r name with ⟨v, hv, h⟩ | ⟨-, h⟩
  · rw [h]
    exact List.mem_map_of_mem hv
  · rw [h, handles_push]
    exact List.mem_append_right _ (List.mem_singleton.mpr rfl)

theorem handles_subset_bind (r : Registry) (name : String) :
    r.handles ⊆ (r.bind name).2.handles := by
  rcases bind_cases r name with ⟨v, -, h⟩ | h
  · rw [h]
    exact List.Subset.refl _
  · rw [h]
    exact handles_subset_register r name

theorem bind_mem (r : Registry) (name : String) : (r.bind name).1 ∈ (r.bind name).2.handles := by
  rcases bind_cases r name with ⟨v, hv, h⟩ | h
  · rw [h]
    exact List.mem_map_of_mem hv
  · rw [h]
    exact register_mem r name

/-- Removing a variable leaves the other handles declared. -/
theorem mem_handles_remove {r : Registry} {g h : Handle} (hg : g ∈ r.handles) (hne : g ≠ h) :
    g ∈ (r.remove h).handles := by
  obtain ⟨v, hv, rfl⟩ := mem_handles.mp hg
  have hkept : v ∈ r.vars.eraseP (·.handle = h) :=
    (List.mem_eraseP_of_neg (by simpa using hne)).mpr hv
  exact List.mem_map_of_mem hkept

/-- Renaming keeps all handles, and tells of one of them. -/
theorem handles_of_rename {r r' : Registry} {h holder : Handle} {name : String}
    (hn : r.rename h name = some (holder, r')) :
    r'.handles = r.handles ∧ holder ∈ r.handles := by
  rcases rename_cases r h name with ⟨-, hnone⟩ | ⟨i, hi, ⟨v, hv, -, hs⟩ | ⟨-, hs⟩⟩
  · rw [hnone] at hn
    cases hn
  · rw [hs] at hn
    cases hn
    exact ⟨rfl, List.mem_map_of_mem hv⟩
  · rw [hs] at hn
    cases hn
    obtain ⟨v, hv, hvh⟩ := position?_eq_some hi
    exact ⟨handles_modify r i _ _, mem_handles.mpr ⟨v, List.mem_of_getElem? hv, hvh⟩⟩

/-- Every handle in the settings of some blocks is declared or exempt. -/
def Covers (r : Registry) (exempt : Handle → Prop) (ns : List Node) : Prop :=
  ∀ n ∈ ns, ∀ h ∈ n.handles, h ∈ r.handles ∨ exempt h

variable {r r' : Registry} {exempt : Handle → Prop} {ns ms : List Node}

theorem Covers.subset (hr : r.Covers exempt ns) (hns : ms ⊆ ns) : r.Covers exempt ms :=
  fun n hn => hr n (hns hn)

theorem Covers.grow (hr : r.Covers exempt ns) (hhandles : r.handles ⊆ r'.handles) :
    r'.Covers exempt ns :=
  fun n hn h hh => (hr n hn h hh).imp_left fun hmem => hhandles hmem

theorem covers_append : r.Covers exempt (ns ++ ms) ↔ r.Covers exempt ns ∧ r.Covers exempt ms :=
  List.forall_mem_append

/-- A variable can be taken away if all that referred to it refers to another one. -/
theorem Covers.redirect (hr : r.Covers exempt ns) {source target : Handle}
    (hothers : ∀ g ∈ r.handles, g ≠ source → g ∈ r'.handles)
    (htarget : source ∈ r.handles ∨ exempt source → target ∈ r'.handles ∨ exempt target) :
    r'.Covers exempt (ns.map (Node.redirect source target)) := by
  intro m hm h hh
  obtain ⟨n, hn, rfl⟩ := List.mem_map.mp hm
  have hredirect : (n.redirect source target).handles =
      n.handles.map fun g => if g = source then target else g := Node.handles_mapHandle _ n
  rw [hredirect] at hh
  obtain ⟨g, hg, rfl⟩ := List.mem_map.mp hh
  by_cases hgs : g = source
  · rw [if_pos hgs]
    exact htarget (hgs ▸ hr n hn g hg)
  · rw [if_neg hgs]
    exact (hr n hn g hg).imp_left fun hmem => hothers g hmem hgs

end Registry

/-! ### Migration -/

/-- The blocks of a migration, apart from what hangs on them. -/
def Migration.nodes (m : Migration) : List Node := m.blocks.flatMap Block.nodes

theorem nodes_map_redirect (blocks : List Block) (source target : Handle) :
    (blocks.map (Block.redirect source target)).flatMap Block.nodes =
      (blocks.flatMap Block.nodes).map (Node.redirect source target) := by
  rw [List.flatMap_map, List.map_flatMap]
  exact List.flatMap_congr fun b _ => Block.nodes_map _ b

/-- One step of migration leaves no reference behind to the variable whose turn it is. -/
theorem Migration.covers_step {exempt : Handle → Prop} {m : Migration}
    (hm : m.registry.Covers exempt m.nodes) (old : Variable) (index : Nat) :
    (m.step old index).registry.Covers exempt (m.step old index).nodes := by
  rcases m.step_cases old index with ⟨-, -, h⟩ | ⟨v, hholder, h⟩ | ⟨-, -, h⟩
  · rwa [h]
  · rw [h, nodes, nodes_map_redirect]
    obtain ⟨hv, -, hne⟩ := Registry.mem_of_holder? hholder
    refine hm.redirect (fun g hg hgo => Registry.mem_handles_remove hg hgo) fun _ => .inl ?_
    exact Registry.mem_handles_remove (List.mem_map_of_mem hv) hne
  · rw [h, nodes, nodes_map_redirect]
    have hpushed : ∀ g, g ∈ m.registry.handles ∨ g = m.registry.mint.1 → g ≠ old.handle →
        g ∈ ((m.registry.mint.2.push ⟨m.registry.mint.1, old.declared,
          Identifier.sanitize (some old.resolved) index⟩).remove old.handle).handles := by
      intro g hg hgo
      refine Registry.mem_handles_remove ?_ hgo
      rw [Registry.handles_push]
      exact List.mem_append.mpr (hg.imp_right List.mem_singleton.mpr)
    refine hm.redirect (fun g hg hgo => hpushed g (.inl hg) hgo) fun hold => ?_
    by_cases hnew : m.registry.mint.1 = old.handle
    · -- the handle of the variable is free, so nothing declared referred to it
      rw [hnew]
      exact .inr (hold.resolve_left (hnew ▸ m.registry.mint_not_mem))
    · exact .inl (hpushed _ (.inr rfl) hnew)

theorem Migration.covers_run {exempt : Handle → Prop} {m : Migration}
    (hm : m.registry.Covers exempt m.nodes) (rest : List (Variable × Nat)) :
    let m' := rest.foldl (fun m (old, index) => m.step old index) m
    m'.registry.Covers exempt m'.nodes := by
  exact run_of_step (I := fun m _ => m.registry.Covers exempt m.nodes)
    (fun h => covers_step h _ _) hm

/-! ### Putting blocks together -/

theorem Children.nodes_insert_subset (slot : Slot) (b : Block) (cs : Children) :
    (cs.insert slot b).nodes ⊆ b.nodes ++ cs.nodes := by
  induction cs with
  | nil => simp [insert, nodes, Block.nodes]
  | cons s n below rest _ ih =>
    intro m hm
    rw [insert] at hm
    split at hm
    · simpa [nodes, Block.nodes, or_assoc] using hm
    · split at hm
      · simp only [nodes, Block.nodes, List.mem_cons, List.mem_append] at hm ⊢
        tauto
      · have hrest : m ∈ (rest.insert slot b).nodes → m ∈ b.nodes ∨ m ∈ rest.nodes :=
          fun h => List.mem_append.mp (ih h)
        simp only [nodes, List.mem_cons, List.mem_append] at hm ⊢
        tauto

namespace Workspace

theorem nodes_plugChain_subset (slot : Slot) (chain target : Block) :
    (plugChain slot chain target).nodes ⊆ chain.nodes ++ target.nodes := by
  have hplug : ∀ b : Block, (target.plug slot b).nodes ⊆ b.nodes ++ target.nodes := by
    intro b m hm
    rcases List.mem_cons.mp hm with rfl | hm
    · exact List.mem_append_right _ List.mem_cons_self
    · rcases List.mem_append.mp (Children.nodes_insert_subset slot b _ hm) with hm | hm
      · exact List.mem_append_left _ hm
      · exact List.mem_append_right _ (List.mem_cons_of_mem _ hm)
  have hspliced : ∀ d, target.children.get? slot = some d →
      (target.plug slot (chain.follow d)).nodes ⊆ chain.nodes ++ target.nodes := by
    intro d hd m hm
    rcases List.mem_append.mp (hplug _ hm) with hm | hm
    · rcases List.mem_append.mp ((Block.perm_follow chain d).mem_iff.mp hm) with hm | hm
      · exact List.mem_append_left _ hm
      · have hin : m ∈ target.children.nodes :=
          (Children.perm_get? hd).mem_iff.mpr (List.mem_append_left _ hm)
        exact List.mem_append_right _ (List.mem_cons_of_mem _ hin)
    · exact List.mem_append_right _ hm
  unfold plugChain
  split
  · exact hplug chain
  · split
    · rename_i hd
      exact hspliced _ hd
    · exact hplug chain

theorem nodes_bumped?_subset {slot : Slot} {target b : Block} (h : bumped? slot target = some b) :
    b.nodes ⊆ target.nodes := by
  cases slot with
  | input name =>
    exact fun m hm => List.mem_cons_of_mem _
      ((Children.perm_get? h).mem_iff.mpr (List.mem_append_left _ hm))
  | statement name => cases h
  | next => cases h

/-- Wherever a chain goes, the blocks on the canvas are those that were there and its own. -/
theorem nodes_attach_subset (w : Workspace) (chain : Block) (previous : Option Position)
    (target : BlockId) (slot : Slot) :
    (w.attach chain previous target slot).2.nodes ⊆ chain.nodes ++ w.nodes := by
  rw [attach]
  split
  · rename_i b top hfind htop
    obtain ⟨c, others, hc, hold, hnew⟩ := perm_updateTop? htop
    obtain rfl : c = b := Option.some.inj (hc.symm.trans hfind)
    have hthere : ∀ m, m ∈ c.nodes ∨ m ∈ others → m ∈ w.nodes :=
      fun m hm => hold.mem_iff.mpr (List.mem_append.mpr hm)
    intro m hm
    simp only [nodes, topNodes_append, List.mem_append] at hm
    rcases hm with hm | hm
    · rcases List.mem_append.mp (hnew.mem_iff.mp hm) with hm | hm
      · rcases List.mem_append.mp (nodes_plugChain_subset slot chain c hm) with hm | hm
        · exact List.mem_append_left _ hm
        · exact List.mem_append_right _ (hthere m (.inl hm))
      · exact List.mem_append_right _ (hthere m (.inr hm))
    · obtain ⟨t, ht, hm⟩ := List.mem_flatMap.mp hm
      obtain ⟨d, hd, rfl⟩ := List.mem_map.mp ht
      have hbumped := nodes_bumped?_subset (Option.mem_toList.mp hd) hm
      exact List.mem_append_right _ (hthere m (.inl hbumped))
  · intro m hm
    simpa [nodes, or_comm] using hm

/-- A move brings no block onto the canvas, whether or not it is refused. -/
theorem nodes_move_subset (w : Workspace) (id : BlockId) (placement : Placement) :
    (w.move id placement).2.nodes ⊆ w.nodes := by
  rw [move]
  split
  · exact List.Subset.refl _
  · split
    · exact List.Subset.refl _
    · split
      · exact List.Subset.refl _
      · rename_i chain top htake
        have hparts : chain.nodes ++ topNodes top ⊆ w.nodes := (perm_take? htake).symm.subset
        cases placement with
        | canvas position =>
          intro m hm
          refine hparts ?_
          simpa [nodes, or_comm] using hm
        | slot target slot =>
          exact fun m hm => hparts (nodes_attach_subset { w with top := top } _ _ _ _ hm)

/-! ### Deleting users -/

/-- If nobody refers to a variable, no setting has its handle. -/
theorem not_mem_handles {w : Workspace} {h : Handle} (hnone : firstUser? h w.top = none) :
    ∀ n ∈ w.nodes, h ∉ n.handles := by
  rw [← map_node_walk]
  intro n hn hmem
  obtain ⟨b, hb, rfl⟩ := List.mem_map.mp hn
  have hfree : b.mentions h = false := firstUser?_eq_none_iff.mp hnone b hb
  rw [Block.mentions_iff.mpr hmem] at hfree
  cases hfree

/-! ### Binding names -/

section Bind

variable {exempt : Handle → Prop}

theorem handles_subset_bindNode (n : Node) (r : Registry) :
    r.handles ⊆ (bindNode n r).2.handles := by
  rcases bindNode_cases n r with ⟨-, h⟩ | ⟨name, h⟩
  · rw [h]
    exact List.Subset.refl _
  · rw [h]
    exact Registry.handles_subset_bind r name

theorem covers_bindNode {n : Node} {r : Registry} (hn : r.Covers exempt [n]) :
    (bindNode n r).2.Covers exempt [(bindNode n r).1] := by
  rcases bindNode_cases n r with ⟨-, h⟩ | ⟨name, h⟩
  · rwa [h]
  · rw [h]
    refine List.forall_mem_singleton.mpr fun g hg => ?_
    rcases Node.mem_handles_insert hg with hbound | hg
    · cases hbound
      exact .inl (Registry.bind_mem r name)
    · have hold := List.forall_mem_singleton.mp hn g hg
      exact hold.imp_left fun hmem => Registry.handles_subset_bind r name hmem

theorem handles_subset_mapState (cs : Children) (r : Registry) :
    r.handles ⊆ (cs.mapState bindNode r).2.handles :=
  Children.mapState_keeps (I := fun s : Registry => r.handles ⊆ s.handles)
    (fun n s hs => List.Subset.trans hs (handles_subset_bindNode n s)) cs (List.Subset.refl _)

theorem covers_mapState {cs : Children} {r : Registry} (h : r.Covers exempt cs.nodes) :
    (cs.mapState bindNode r).2.Covers exempt (cs.mapState bindNode r).1.nodes := by
  induction cs generalizing r with
  | nil => exact h
  | cons s n below rest ihb ihr =>
    obtain ⟨hn, h⟩ := Registry.covers_append.mp (show r.Covers exempt ([n] ++ _) from h)
    obtain ⟨hbelow, hrest⟩ := Registry.covers_append.mp h
    have hgrow := handles_subset_bindNode n r
    have hgrowb := handles_subset_mapState below (bindNode n r).2
    have hgrowr := handles_subset_mapState rest (below.mapState bindNode (bindNode n r).2).2
    -- what is covered early on stays covered as names are bound further on
    have hfirst := (covers_bindNode hn).grow (List.Subset.trans hgrowb hgrowr)
    have hsecond := (ihb (hbelow.grow hgrow)).grow hgrowr
    have hthird := ihr (hrest.grow (List.Subset.trans hgrow hgrowb))
    exact Registry.covers_append.mpr ⟨hfirst, Registry.covers_append.mpr ⟨hsecond, hthird⟩⟩

theorem covers_mapState_block {b : Block} {r : Registry} (h : r.Covers exempt b.nodes) :
    (b.mapState bindNode r).2.Covers exempt (b.mapState bindNode r).1.nodes := by
  obtain ⟨hn, hbelow⟩ := Registry.covers_append.mp (show r.Covers exempt ([b.node] ++ _) from h)
  have hfirst := (covers_bindNode hn).grow (handles_subset_mapState b.children _)
  have hsecond := covers_mapState (hbelow.grow (handles_subset_bindNode b.node r))
  exact Registry.covers_append.mpr ⟨hfirst, hsecond⟩

end Bind

/-! ### Calls -/

/-- Every handle on the canvas is declared or exempt. -/
def Covered (w : Workspace) (exempt : Handle → Prop) : Prop := w.registry.Covers exempt w.nodes

theorem closed_iff {w : Workspace} : w.Closed ↔ w.Covered fun _ => False := by
  simp only [Closed, Covered, Registry.Covers, ← map_node_walk, List.forall_mem_map, or_false,
    Registry.declares_iff]

/-- Giving a value puts it into one setting, or the variable that a text names, which is then
declared. -/
theorem exists_value_setField {w : Workspace} {id : BlockId} {b : Block}
    (hfind : w.find? id = some b) (name : String) (value : Field) :
    ∃ value' r, (value' = value ∨ ∃ h ∈ r.handles, value' = .var h) ∧
      w.registry.handles ⊆ r.handles ∧
      (w.setField id name value).2 =
        { w with
          top := (updateTop? id (Block.setField · name value') w.top).getD w.top
          registry := r } := by
  rw [setField, hfind]
  cases value with
  | var h => exact ⟨.var h, w.registry, .inl rfl, List.Subset.refl _, rfl⟩
  | text s =>
    by_cases hbind : b.kind.hasVariable && name = variableField
    · refine ⟨.var (w.registry.bind s).1, (w.registry.bind s).2,
        .inr ⟨_, Registry.bind_mem _ s, rfl⟩, Registry.handles_subset_bind _ s, ?_⟩
      simp only [hbind, if_true]
    · refine ⟨.text s, w.registry, .inl rfl, List.Subset.refl _, ?_⟩
      simp only [hbind, Bool.false_eq_true, if_false]

/-- A setting that is given a value brings no handle onto the canvas but that of the value. -/
theorem covers_setField {r : Registry} {exempt : Handle → Prop} {id : BlockId} {name : String}
    {value : Field} {top top' : List TopBlock} (h : r.Covers exempt (topNodes top))
    (hvalue : ∀ g, value = .var g → g ∈ r.handles ∨ exempt g)
    (htop : updateTop? id (Block.setField · name value) top = some top') :
    r.Covers exempt (topNodes top') := by
  obtain ⟨b, others, -, hold, hnew⟩ := perm_updateTop? htop
  have hthere : ∀ m ∈ b.nodes ++ others, ∀ g ∈ m.handles, g ∈ r.handles ∨ exempt g :=
    fun m hm => h m (hold.mem_iff.mpr hm)
  intro m hm g hg
  rcases List.mem_cons.mp (hnew.mem_iff.mp hm) with rfl | hm
  · rcases Node.mem_handles_insert hg with hbrought | hg
    · exact hvalue g hbrought
    · exact hthere b.node List.mem_cons_self g hg
  · exact hthere m (List.mem_cons_of_mem _ hm) g hg

theorem nodes_mapBlocks_redirect (w : Workspace) (source target : Handle) :
    (w.mapBlocks (Block.redirect source target)).nodes =
      w.nodes.map (Node.redirect source target) := by
  have hblocks := nodes_map_redirect (w.top.map TopBlock.block) source target
  simpa only [nodes, topNodes, mapBlocks, List.flatMap_map, List.map_map, Function.comp] using hblocks

theorem nodes_migrate (w : Workspace) :
    w.migrate.2.nodes = (w.registry.migrate (w.top.map TopBlock.block)).nodes := by
  obtain ⟨ρ, hρ⟩ := exists_blocks_migrate w.registry (w.top.map TopBlock.block)
  have hblocks : w.migrate.2.top.map TopBlock.block =
      (w.registry.migrate (w.top.map TopBlock.block)).blocks := by
    rw [top_migrate hρ, hρ, List.map_map, List.map_map]
    rfl
  rw [nodes, topNodes, Migration.nodes, ← hblocks, List.flatMap_map]

namespace Covered

variable {w : Workspace} {exempt : Handle → Prop}

theorem add (hw : w.Covered exempt) {b : Block} (hb : w.registry.Covers exempt b.nodes)
    (position : Option Position) : (w.add b position).2.Covered exempt := by
  rcases add_cases w b position with ⟨e, h⟩ | ⟨-, h⟩
  · rwa [h]
  · rw [h]
    have hgrow : w.registry.handles ⊆ (b.mapState bindNode w.registry).2.handles :=
      List.Subset.trans (handles_subset_bindNode b.node _) (handles_subset_mapState b.children _)
    simp only [Covered, nodes, topNodes_append, topNodes_cons, topNodes_nil, List.append_nil]
    exact Registry.covers_append.mpr ⟨hw.grow hgrow, covers_mapState_block hb⟩

theorem move (hw : w.Covered exempt) (id : BlockId) (placement : Placement) :
    (w.move id placement).2.Covered exempt := by
  have hregistry : (w.move id placement).2.registry = w.registry :=
    registry_move (I := fun r => r = w.registry) rfl id placement
  rw [Covered, hregistry]
  exact hw.subset (nodes_move_subset w id placement)

theorem remove (hw : w.Covered exempt) (id : BlockId) : (w.remove id).2.Covered exempt := by
  rcases remove_cases w id with ⟨e, h⟩ | ⟨b, top, htake, h⟩
  · rwa [h]
  · rw [h]
    exact hw.subset (subperm_take? htake).subset

theorem setField (hw : w.Covered exempt) (id : BlockId) (name : String) {value : Field}
    (hvalue : ∀ g, value = .var g → g ∈ w.registry.handles ∨ exempt g) :
    (w.setField id name value).2.Covered exempt := by
  cases hfind : w.find? id with
  | none =>
    rw [Workspace.setField, hfind]
    exact hw
  | some b =>
    obtain ⟨value', r, hcases, hgrow, h⟩ := exists_value_setField hfind name value
    have hvalue' : ∀ g, value' = .var g → g ∈ r.handles ∨ exempt g := by
      rintro g rfl
      rcases hcases with rfl | ⟨g', hg', heq⟩
      · exact (hvalue g rfl).imp_left fun hmem => hgrow hmem
      · cases heq
        exact .inl hg'
    rw [h]
    cases htop : updateTop? id (Block.setField · name value') w.top with
    | none => exact hw.grow hgrow
    | some top => exact covers_setField (hw.grow hgrow) hvalue' htop

theorem createVariable (hw : w.Covered exempt) (name : String) :
    (w.createVariable name).2.Covered exempt :=
  hw.grow (Registry.handles_subset_register w.registry name)

theorem renameVariable (hw : w.Covered exempt) (h : Handle) (name : String) :
    (w.renameVariable h name).2.Covered exempt := by
  rw [Workspace.renameVariable]
  cases hr : w.registry.rename h name with
  | none => exact hw
  | some p =>
    obtain ⟨holder, r⟩ := p
    obtain ⟨hhandles, hholder⟩ := Registry.handles_of_rename hr
    dsimp only
    split
    · exact hw.grow (by rw [hhandles]; exact List.Subset.refl _)
    · rename_i hne
      have hkept : ∀ g ∈ w.registry.handles, g ≠ h → g ∈ (r.remove h).handles :=
        fun g hg hgh => Registry.mem_handles_remove (by rwa [hhandles]) hgh
      show (r.remove h).Covers exempt (w.mapBlocks (Block.redirect h holder)).nodes
      rw [nodes_mapBlocks_redirect]
      exact Registry.Covers.redirect hw hkept fun _ => .inl (hkept holder hholder hne)

theorem deleteVariable (hw : w.Covered exempt) (h : Handle) :
    (w.deleteVariable h).2.Covered exempt := by
  cases hdeclared : w.registry.declares h with
  | false => rwa [Workspace.deleteVariable, hdeclared, if_neg Bool.false_ne_true]
  | true =>
    obtain ⟨rounds, w', hc, -, heq⟩ := exists_deleteVariable hdeclared
    rw [heq]
    intro n hn g hg
    have hgh : g ≠ h := by
      rintro rfl
      exact not_mem_handles hc.firstUser?_eq_none n hn hg
    exact (hw n (hc.subperm_nodes.subset hn) g hg).imp_left fun hmem =>
      Registry.mem_handles_remove hmem hgh

theorem migrate (hw : w.Covered exempt) : w.migrate.2.Covered exempt := by
  have hstart : w.registry.Covers exempt
      (Migration.nodes ⟨w.registry, w.top.map TopBlock.block, 0⟩) := by
    rw [Migration.nodes, List.flatMap_map]
    exact hw
  rw [Covered, nodes_migrate]
  exact Migration.covers_run (m := ⟨w.registry, w.top.map TopBlock.block, 0⟩) hstart _

end Covered

end Workspace

/-- The handles in the chain or the value that a call hands over. -/
def Call.handles : Call → List Handle
  | .add b _ _ => b.nodes.flatMap Node.handles
  | .setField _ _ value => value.handle?.toList
  | _ => []

/-- No call adds to the handles that are not declared, unless it hands one over. -/
theorem Workspace.Covered.call {w : Workspace} {exempt : Handle → Prop} (hw : w.Covered exempt)
    {c : Call} (hc : ∀ h ∈ c.handles, h ∈ w.registry.handles ∨ exempt h) :
    (w.call c).Covered exempt := by
  cases c with
  | add b ordered position =>
    exact hw.add (fun n hn h hh => hc h (List.mem_flatMap.mpr ⟨n, hn, hh⟩)) position
  | move id placement => exact hw.move id placement
  | remove id => exact hw.remove id
  | setField id name value =>
    refine hw.setField id name ?_
    rintro h rfl
    exact hc h List.mem_cons_self
  | createVariable name => exact hw.createVariable name
  | renameVariable h name => exact hw.renameVariable h name
  | deleteVariable h => exact hw.deleteVariable h
  | migrate => exact hw.migrate
  | mint => exact hw

/-- **No call leaves a reference behind.** A canvas on which every handle is declared is still such
a canvas after a call, accepted or refused, that hands over declared handles only. -/
theorem Workspace.closed_call {w : Workspace} (hw : w.Closed) {c : Call}
    (hc : ∀ h ∈ c.handles, w.registry.declares h) : (w.call c).Closed := by
  rw [closed_iff] at hw ⊢
  exact hw.call fun h hh => .inl (Registry.declares_iff.mp (hc h hh))

/-- A variable is renamed to the name of another one; two of the three blocks that refer to them
have one identity, and one of these hangs on the other. -/
theorem Workspace.closed_call_merged :
    let r := (Registry.empty.declare ⟨"a"⟩ "x").declare ⟨"b"⟩ "y"
    let get (id h : String) : Node := ⟨⟨id⟩, .variableGet, ⟨[("VAR", .var ⟨h⟩)]⟩⟩
    let set (id h : String) : Node := ⟨⟨id⟩, .variableSet, ⟨[("VAR", .var ⟨h⟩)]⟩⟩
    let w : Workspace := .ofParts
      [⟨⟨set "s" "b", .cons (.input "VALUE") (get "s" "b") .nil .nil⟩, none⟩,
        ⟨⟨get "g" "a", .nil⟩, none⟩] r
    let v := w.call (.renameVariable ⟨"b"⟩ "x")
    w.Closed ∧ v.registry.declares ⟨"b"⟩ = false ∧ v.Closed := by
  intro r get set w v
  have hclosed : w.Closed := by
    unfold Closed
    decide
  exact ⟨hclosed, by decide, closed_call hclosed fun h hh => absurd hh List.not_mem_nil⟩

end BlockProgram
