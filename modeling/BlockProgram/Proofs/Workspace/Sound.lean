import BlockProgram.Proofs.Workspace.Edit

/-!
# Sound canvases

A canvas is sound if its slots and settings are in order, no two blocks on it share an
identity, no two variables share a handle, and every block of a variable kind refers to its
variable by handle. Every change keeps a canvas sound, and a change of a sound canvas that is
refused leaves it as it was.
-/

namespace BlockProgram

namespace Workspace

/-- What holds of every canvas that can come about. -/
structure Sound (w : Workspace) : Prop where
  /-- Slots and settings are in order. -/
  ordered : w.Ordered
  /-- No two blocks share an identity. -/
  ids : (w.nodes.map Node.id).Nodup
  /-- No two variables share a handle. -/
  handles : w.registry.handles.Nodup
  /-- Blocks of variable kinds refer to their variables by handle. -/
  bound : ∀ n ∈ w.nodes, n.Bound

theorem sound_empty : empty.Sound :=
  ⟨fun _ ht => absurd ht List.not_mem_nil, List.nodup_nil, List.nodup_nil,
    fun _ hn => absurd hn List.not_mem_nil⟩

namespace Sound

variable {w : Workspace}

/-- Chains made of some of the blocks can be put in the place of the chains. -/
theorem of_subperm (hw : w.Sound) {top : List TopBlock} (htop : ∀ t ∈ top, t.block.Ordered)
    (h : (topNodes top).Subperm w.nodes) : Sound { w with top := top } :=
  ⟨htop, by
    obtain ⟨ns, hperm, hsub⟩ := h
    exact (hperm.map Node.id).nodup_iff.mp ((hsub.map Node.id).nodup hw.ids),
    hw.handles, fun n hn => hw.bound n (h.subset hn)⟩

theorem of_registry (hw : w.Sound) {r : Registry} (hr : r.handles.Nodup) :
    Sound { w with registry := r } := ⟨hw.ordered, hw.ids, hr, hw.bound⟩

end Sound

/-! ### Adding -/

theorem Sound.add {w : Workspace} (hw : w.Sound) {b : Block} (hb : b.Ordered)
    (position : Option Position) : (w.add b position).2.Sound := by
  rcases add_cases w b position with ⟨e, h⟩ | ⟨hnew, h⟩
  · rwa [h]
  · rw [h]
    obtain ⟨hnodup, hfree⟩ := firstRepeated?_eq_none hnew
    have hids : (b.mapState bindNode w.registry).1.nodes.map Node.id = b.ids := by
      rw [Block.map_nodes_mapState id_bindNode, Block.ids_eq]
    refine ⟨?_, ?_, Block.mapState_keeps
      (fun n r hr => registry_bindNode n r Registry.kept_nodup hr) b hw.handles, ?_⟩
    · intro t ht
      rcases List.mem_append.mp ht with ht | ht
      · exact hw.ordered t ht
      · rw [List.mem_singleton.mp ht]
        exact hb.mapState sorted_bindNode _
    · simp only [nodes, topNodes_append, topNodes_cons, topNodes_nil, List.append_nil,
        List.map_append, hids]
      refine List.nodup_append.mpr ⟨hw.ids, hnodup, ?_⟩
      rintro id hid other hother rfl
      have := (hfree id hother).2
      rw [find?_isSome_iff.mpr hid] at this
      cases this
    · intro n hn
      simp only [nodes, topNodes_append, topNodes_cons, topNodes_nil, List.append_nil,
        List.mem_append] at hn
      rcases hn with hn | hn
      · exact hw.bound n hn
      · exact Block.forall_nodes_mapState bound_bindNode b _ n hn

/-! ### Removing -/

theorem Sound.take? {w : Workspace} (hw : w.Sound) {extent : Extent} {id : BlockId} {b : Block}
    {top : List TopBlock} (h : take? extent id w.top = some (b, top)) :
    Sound { w with top := top } :=
  hw.of_subperm (ordered_take? hw.ordered h).2 (subperm_take? h)

theorem Sound.remove {w : Workspace} (hw : w.Sound) (id : BlockId) : (w.remove id).2.Sound := by
  rcases remove_cases w id with ⟨e, h⟩ | ⟨b, top, htake, h⟩
  · rwa [h]
  · rw [h]
    exact hw.take? htake

/-! ### Moving -/

/-- Putting a chain into a slot keeps all blocks: those of the chain, those of the target, and
those that have to leave. -/
theorem perm_plugChain (slot : Slot) (chain : Block) {target : Block} (h : target.Ordered) :
    ((plugChain slot chain target).nodes ++
      (bumped? slot target).toList.flatMap Block.nodes).Perm (chain.nodes ++ target.nodes) := by
  -- what was in the slot either leaves or goes on below the chain
  have hput : ∀ b : Block, (target.plug slot b).nodes.Perm
      (b.nodes ++ target.node :: (target.children.erase slot).nodes) :=
    fun b => Block.perm_plug b h
  have hslot : ∀ d, target.children.get? slot = some d →
      (target.node :: (target.children.erase slot).nodes ++ d.nodes).Perm target.nodes :=
    fun d hd => ((Children.perm_get? hd).trans List.perm_append_comm).symm.cons target.node
  have hempty : target.children.get? slot = none →
      target.node :: (target.children.erase slot).nodes = target.nodes :=
    fun hd => by rw [Children.erase_of_get?_eq_none hd, Block.nodes]
  have hspliced : ∀ d, target.children.get? slot = some d →
      (target.plug slot (chain.follow d)).nodes.Perm (chain.nodes ++ target.nodes) := by
    intro d hd
    refine (hput _).trans (((Block.perm_follow chain d).append_right _).trans ?_)
    rw [List.append_assoc]
    exact (List.perm_append_comm.trans (hslot d hd)).append_left chain.nodes
  cases slot with
  | input name =>
    simp only [plugChain, bumped?]
    cases hd : target.children.get? (.input name) with
    | none => simpa [hempty hd] using hput chain
    | some d =>
      refine ((hput chain).append_right _).trans ?_
      rw [List.append_assoc]
      simpa using (hslot d hd).append_left chain.nodes
  | statement name =>
    simp only [plugChain, bumped?, Option.toList_none, List.flatMap_nil, List.append_nil]
    cases hd : target.children.get? (.statement name) with
    | none => simpa [hempty hd] using hput chain
    | some d => exact hspliced d hd
  | next =>
    simp only [plugChain, bumped?, Option.toList_none, List.flatMap_nil, List.append_nil]
    cases hd : target.children.get? .next with
    | none => simpa [hempty hd] using hput chain
    | some d => exact hspliced d hd

theorem ordered_plugChain (slot : Slot) {chain target : Block} (hc : chain.Ordered)
    (ht : target.Ordered) : (plugChain slot chain target).Ordered := by
  unfold plugChain
  split
  · exact ht.plug _ hc
  · split
    · rename_i hd
      exact ht.plug _ (hc.follow (ht.2.get? hd))
    · exact ht.plug _ hc

theorem ordered_bumped? {slot : Slot} {target b : Block} (ht : target.Ordered)
    (h : bumped? slot target = some b) : b.Ordered := by
  cases slot with
  | input name => exact ht.2.get? h
  | statement name => cases h
  | next => cases h

/-- If the target is on the canvas the chain finds its place: no block is lost, none comes up
twice. -/
theorem attach_eq {w : Workspace} (hw : w.Ordered) {chain : Block} (hc : chain.Ordered)
    (previous : Option Position) {target : BlockId} (ht : target ∈ w.nodes.map Node.id)
    (slot : Slot) :
    ∃ top, w.attach chain previous target slot = (.ok (), { w with top := top }) ∧
      (topNodes top).Perm (chain.nodes ++ w.nodes) ∧ ∀ t ∈ top, t.block.Ordered := by
  obtain ⟨b, hb⟩ := Option.isSome_iff_exists.mp (find?_isSome_iff.mpr ht)
  obtain ⟨top, htop⟩ := exists_updateTop? hb (plugChain slot chain)
  obtain ⟨c, others, hfind, hold, hnew⟩ := perm_updateTop? htop
  obtain rfl : c = b := Option.some.inj (hfind.symm.trans hb)
  obtain ⟨t, htm, hct⟩ := List.mem_flatMap.mp (mem_walk_of_find? hb).1
  have hco : c.Ordered := (hw t htm).walk hct
  refine ⟨top ++ (bumped? slot c).toList.map (⟨·, none⟩), by simp [attach, hb, htop], ?_, ?_⟩
  · have hbumped : topNodes ((bumped? slot c).toList.map (⟨·, none⟩)) =
        (bumped? slot c).toList.flatMap Block.nodes := by
      rw [topNodes, List.flatMap_map]
    rw [topNodes_append, hbumped]
    refine (hnew.append_right _).trans ?_
    rw [List.append_assoc]
    refine (List.perm_append_comm.append_left _).trans ?_
    rw [← List.append_assoc]
    refine ((perm_plugChain slot chain hco).append_right others).trans ?_
    rw [List.append_assoc]
    exact hold.symm.append_left chain.nodes
  · intro u hu
    rcases List.mem_append.mp hu with hu | hu
    · exact ordered_updateTop? (fun _ hb => ordered_plugChain slot hc hb) hw htop u hu
    · obtain ⟨d, hd, rfl⟩ := List.mem_map.mp hu
      exact ordered_bumped? hco (Option.mem_toList.mp hd)

/-- A target that a move may have is still there when the chain has been taken off. -/
theorem Sound.mem_left_of_moveFault? {w : Workspace} (hw : w.Sound) {id target : BlockId}
    {slot : Slot} {moving chain : Block} {left : List TopBlock} (hfind : w.find? id = some moving)
    (hfault : moveFault? w moving (.slot target slot) = none)
    (htake : Workspace.take? .withChain id w.top = some (chain, left)) :
    target ∈ (topNodes left).map Node.id := by
  -- with distinct identities the chain is the block found, in which the target is not
  have hchain : chain = moving :=
    eq_of_id_eq hw.ids (mem_walk_of_take? htake).1 (mem_walk_of_find? hfind).1
      ((mem_walk_of_take? htake).2.trans (mem_walk_of_find? hfind).2.symm)
  simp only [moveFault?] at hfault
  split at hfault
  · cases hfault
  · rename_i hout
    split at hfault
    · cases hfault
    · rename_i hthere
      have hin : target ∈ w.nodes.map Node.id :=
        find?_isSome_iff.mp (by simpa [Option.isSome_iff_ne_none] using hthere)
      have hsplit := ((perm_take? htake).map Node.id).mem_iff.mp hin
      rw [List.map_append, List.mem_append] at hsplit
      rcases hsplit with h | h
      · rw [hchain] at h
        exact absurd (Block.find?_isSome_iff.mpr h) hout
      · exact h

/-- On a sound canvas a move is refused before anything is touched, or it only changes the places
of blocks. -/
theorem Sound.move_cases {w : Workspace} (hw : w.Sound) (id : BlockId) (placement : Placement) :
    (∃ e, w.move id placement = (.error e, w)) ∨
    ∃ top, w.move id placement = (.ok (), { w with top := top }) ∧
      (topNodes top).Perm w.nodes ∧ ∀ t ∈ top, t.block.Ordered := by
  rw [move]
  cases hfind : w.find? id with
  | none => exact .inl ⟨_, rfl⟩
  | some moving =>
    cases hfault : moveFault? w moving placement with
    | some e => exact .inl ⟨e, by simp only [hfault]⟩
    | none =>
      have hthere : (Workspace.take? .withChain id w.top).isSome :=
        take?_isSome (find?_isSome_iff.mp (Option.isSome_of_eq_some hfind))
      obtain ⟨⟨chain, left⟩, htake⟩ := Option.isSome_iff_exists.mp hthere
      have hperm := perm_take? htake
      obtain ⟨hc, hleft⟩ := ordered_take? hw.ordered htake
      simp only [hfault, htake]
      cases placement with
      | canvas position =>
        refine .inr ⟨_, rfl, ?_, ?_⟩
        · rw [topNodes_append]
          exact (List.perm_append_comm.trans (by simp)).trans hperm.symm
        · intro t ht
          rcases List.mem_append.mp ht with ht | ht
          · exact hleft t ht
          · rw [List.mem_singleton.mp ht]
            exact hc
      | slot target slot =>
        have htarget := hw.mem_left_of_moveFault? hfind hfault htake
        obtain ⟨top, heq, hnodes, hord⟩ := attach_eq (w := { w with top := left }) hleft hc
          (w.positionOf id) htarget slot
        exact .inr ⟨top, heq, hnodes.trans hperm.symm, hord⟩

theorem Sound.move {w : Workspace} (hw : w.Sound) (id : BlockId) (placement : Placement) :
    (w.move id placement).2.Sound := by
  rcases hw.move_cases id placement with ⟨e, h⟩ | ⟨top, h, hperm, hord⟩
  · rwa [h]
  · rw [h]
    exact hw.of_subperm hord hperm.subperm

/-! ### Settings -/

theorem Sound.setField {w : Workspace} (hw : w.Sound) (id : BlockId) (name : String)
    (value : Field) : (w.setField id name value).2.Sound := by
  have hhandles := registry_setField Registry.kept_nodup hw.handles id name value
  rcases setField_cases w id name value with ⟨e, h⟩ | ⟨b, value', r, hfind, hvalue, -, h⟩
  · rwa [h]
  · rw [h] at hhandles ⊢
    cases htop : updateTop? id (Block.setField · name value') w.top with
    | none =>
      rw [show w.find? id = none from updateTop?_eq_none_iff.mp htop] at hfind
      cases hfind
    | some top =>
      obtain ⟨c, others, hc, hold, hnew⟩ := perm_updateTop? htop
      obtain rfl : c = b := Option.some.inj (hc.symm.trans hfind)
      rw [Option.getD_some]
      refine ⟨ordered_updateTop? (fun b hb => hb.setField name value') hw.ordered htop, ?_,
        hhandles, ?_⟩
      · refine (((hnew.map Node.id).trans ?_).nodup_iff).mpr hw.ids
        exact (hold.map Node.id).symm
      · have hbound : ∀ n ∈ c.nodes ++ others, n.Bound :=
          fun n hn => hw.bound n (hold.mem_iff.mpr hn)
        intro n hn
        rcases List.mem_append.mp (hnew.mem_iff.mp hn) with hn | hn
        · rcases List.mem_cons.mp hn with rfl | hn
          · exact (hbound _ List.mem_cons_self).insert hvalue
          · exact hbound n (List.mem_append_left _ (List.mem_cons_of_mem _ hn))
        · exact hbound n (List.mem_append_right _ hn)

/-! ### Variables -/

/-- Chains in which only handles differ can be put in the place of the chains. -/
theorem Sound.mapHandle {w : Workspace} (hw : w.Sound) (ρ : Handle → Handle) {top : List TopBlock}
    (htop : top.map TopBlock.block = w.top.map fun t => t.block.map (Node.mapHandle ρ)) :
    Sound { w with top := top } := by
  have hnodes : topNodes top = w.nodes.map (Node.mapHandle ρ) := by
    rw [nodes, topNodes, topNodes, ← List.flatMap_map TopBlock.block Block.nodes, htop,
      List.flatMap_map, List.map_flatMap]
    simp only [Block.nodes_map]
  refine ⟨?_, ?_, hw.handles, ?_⟩
  · intro t ht
    have hmem : t.block ∈ w.top.map fun t => t.block.map (Node.mapHandle ρ) :=
      htop ▸ List.mem_map_of_mem ht
    obtain ⟨u, hu, heq⟩ := List.mem_map.mp hmem
    rw [← heq]
    exact (hw.ordered u hu).mapHandle ρ
  · rw [nodes, hnodes, List.map_map]
    exact hw.ids
  · intro n hn
    rw [nodes, hnodes] at hn
    obtain ⟨m, hm, rfl⟩ := List.mem_map.mp hn
    exact (hw.bound m hm).mapHandle ρ

theorem Sound.createVariable {w : Workspace} (hw : w.Sound) (name : String) :
    (w.createVariable name).2.Sound := hw.of_registry (Registry.nodup_register hw.handles name)

theorem Sound.renameVariable {w : Workspace} (hw : w.Sound) (h : Handle) (name : String) :
    (w.renameVariable h name).2.Sound := by
  have hhandles := registry_renameVariable Registry.kept_nodup hw.handles h name
  rcases renameVariable_cases w h name with ⟨e, heq⟩ | ⟨holder, r, -, heq | heq⟩
  · rwa [heq]
  · rw [heq] at hhandles ⊢
    exact hw.of_registry hhandles
  · rw [heq] at hhandles ⊢
    have hblocks : (w.top.map fun t => { t with block := t.block.redirect h holder }).map
        TopBlock.block = w.top.map fun t => t.block.map
          (Node.mapHandle fun g => if g = h then holder else g) := by
      rw [List.map_map]
      rfl
    exact (hw.mapHandle _ hblocks).of_registry hhandles

theorem Sound.deleteVariable {w : Workspace} (hw : w.Sound) (h : Handle) :
    (w.deleteVariable h).2.Sound := by
  rcases deleteVariable_cases hw.ordered h with ⟨e, heq⟩ | ⟨top, heq, hsub, hord⟩
  · rwa [heq]
  · rw [heq]
    exact (hw.of_subperm hord hsub).of_registry (Registry.nodup_remove hw.handles h)

/-! ### Migration and new identities -/

theorem Sound.migrate {w : Workspace} (hw : w.Sound) : w.migrate.2.Sound := by
  obtain ⟨ρ, hρ⟩ := exists_blocks_migrate w.registry (w.top.map TopBlock.block)
  have hblocks : ((w.top.zip (w.registry.migrate (w.top.map TopBlock.block)).blocks).map
      fun e => { e.1 with block := e.2 }).map TopBlock.block =
        w.top.map fun t => t.block.map (Node.mapHandle ρ) := by
    rw [List.map_map, hρ, List.map_map]
    exact List.map_snd_zip (by simp)
  exact (hw.mapHandle ρ hblocks).of_registry (Registry.clean_migrate hw.handles _).handles

theorem Sound.mint {w : Workspace} (hw : w.Sound) : w.mint.2.Sound :=
  ⟨hw.ordered, hw.ids, hw.handles, hw.bound⟩

end Workspace

end BlockProgram
