import BlockProgram.Workspace.Edit
import BlockProgram.Proofs.Block.Nodes
import Mathlib.Data.List.Perm.Subperm

/-!
# The blocks of a canvas

What taking off and changing do to the blocks of all chains together. A block that is on the
canvas can be taken off, wherever it is; what is taken off and what is left are together what
was there.
-/

namespace BlockProgram

/-- The blocks of chains in visiting order, apart from what hangs on them. -/
def topNodes (top : List TopBlock) : List Node := top.flatMap fun t => t.block.nodes

@[simp] theorem topNodes_nil : topNodes [] = [] := rfl

@[simp] theorem topNodes_cons (t : TopBlock) (ts : List TopBlock) :
    topNodes (t :: ts) = t.block.nodes ++ topNodes ts := rfl

@[simp] theorem topNodes_append (ts us : List TopBlock) :
    topNodes (ts ++ us) = topNodes ts ++ topNodes us := List.flatMap_append

theorem topNodes_map (position : Option Position) (b : Option Block) :
    topNodes (b.toList.map (⟨·, position⟩)) = b.toList.flatMap Block.nodes := by
  rw [topNodes, List.flatMap_map]

namespace Workspace

/-- The blocks of a canvas in visiting order, apart from what hangs on them. -/
def nodes (w : Workspace) : List Node := topNodes w.top

theorem map_node_walk (w : Workspace) : w.walk.map Block.node = w.nodes := by
  rw [walk, nodes, topNodes, List.map_flatMap]
  simp only [Block.map_node_walk]

theorem length_nodes (w : Workspace) : w.nodes.length = w.blockCount := by
  rw [← map_node_walk, List.length_map, blockCount]

/-! ### Looking up -/

theorem find?_isSome_iff {w : Workspace} {id : BlockId} :
    (w.find? id).isSome ↔ id ∈ w.nodes.map Node.id := by
  simp only [find?, List.findSome?_isSome_iff, Block.find?_isSome_iff, nodes, topNodes,
    List.map_flatMap, List.mem_flatMap]

theorem mem_ids_of_mem_walk {w : Workspace} {b : Block} (h : b ∈ w.walk) :
    b.id ∈ w.nodes.map Node.id := by
  rw [← map_node_walk, List.map_map]
  exact List.mem_map_of_mem h

/-- What is found is on the canvas, and has the identity. -/
theorem mem_walk_of_find? {w : Workspace} {id : BlockId} {b : Block} (h : w.find? id = some b) :
    b ∈ w.walk ∧ b.id = id := by
  obtain ⟨t, ht, hb⟩ := List.exists_of_findSome?_eq_some h
  rw [Block.find?_eq_walk] at hb
  exact ⟨List.mem_flatMap.mpr ⟨t, ht, List.mem_of_find?_eq_some hb⟩,
    by simpa using List.find?_some hb⟩

/-- With distinct identities, an identity tells its block and all that hangs on it. -/
theorem eq_of_id_eq {w : Workspace} (hw : (w.nodes.map Node.id).Nodup) {b c : Block}
    (hb : b ∈ w.walk) (hc : c ∈ w.walk) (h : b.id = c.id) : b = c := by
  rw [← map_node_walk, List.map_map] at hw
  exact List.inj_on_of_nodup_map hw hb hc h

/-! ### Taking off -/

section Take

variable {extent : Extent} {id : BlockId} {b : Block} {top left : List TopBlock}

theorem takeHead?_eq_some (h : takeHead? extent id top = some (b, left)) :
    ∃ before t after, top = before ++ t :: after ∧ (∀ u ∈ before, u.block.id ≠ id) ∧
      t.block.id = id ∧ b = Children.taken extent t.block.node t.block.children ∧
      left = before ++ (t.block.remainder? extent).toList.map (⟨·, t.position⟩) ++ after := by
  induction top generalizing left with
  | nil => cases h
  | cons t ts ih =>
    unfold takeHead? at h
    split at h
    · rename_i hid
      have hhead : b = Children.taken extent t.block.node t.block.children ∧
          left = (t.block.remainder? extent).toList.map (⟨·, t.position⟩) ++ ts := by
        split at h
        · rename_i rest hrest
          cases h
          exact ⟨rfl, by simp [Block.remainder?, hrest]⟩
        · rename_i hrest
          cases h
          exact ⟨rfl, by simp [Block.remainder?, hrest]⟩
        · cases h
          exact ⟨rfl, rfl⟩
      exact ⟨[], t, ts, rfl, fun _ hu => absurd hu List.not_mem_nil, hid, hhead⟩
    · rename_i hne
      obtain ⟨⟨c, us⟩, hr, heq⟩ := Option.map_eq_some_iff.mp h
      cases heq
      obtain ⟨before, u, after, rfl, hbefore, hid, hb, rfl⟩ := ih hr
      exact ⟨t :: before, u, after, rfl, List.forall_mem_cons.mpr ⟨hne, hbefore⟩, hid, hb, rfl⟩

theorem takeHead?_eq_none (h : takeHead? extent id top = none) : ∀ t ∈ top, t.block.id ≠ id := by
  induction top with
  | nil => exact fun t ht => absurd ht List.not_mem_nil
  | cons t ts ih =>
    unfold takeHead? at h
    split at h
    · split at h <;> cases h
    · rename_i hid
      exact List.forall_mem_cons.mpr ⟨hid, ih (Option.map_eq_none_iff.mp h)⟩

theorem takeInside?_eq_some (h : takeInside? extent id top = some (b, left)) :
    ∃ before t after rest, top = before ++ t :: after ∧ t.block.take? extent id = some (b, rest) ∧
      left = before ++ { t with block := rest } :: after := by
  induction top generalizing left with
  | nil => cases h
  | cons t ts ih =>
    rw [takeInside?] at h
    split at h
    · rename_i hb
      cases h
      exact ⟨[], t, ts, _, rfl, hb, rfl⟩
    · obtain ⟨⟨c, us⟩, hr, heq⟩ := Option.map_eq_some_iff.mp h
      cases heq
      obtain ⟨before, u, after, rest, rfl, hb, rfl⟩ := ih hr
      exact ⟨t :: before, u, after, rest, rfl, hb, rfl⟩

/-- A block is taken off as the head of the first chain that it heads, or from below the head of
one. -/
theorem take?_cases (h : take? extent id top = some (b, left)) :
    (∃ before t after, top = before ++ t :: after ∧ (∀ u ∈ before, u.block.id ≠ id) ∧
      t.block.id = id ∧ b = Children.taken extent t.block.node t.block.children ∧
      left = before ++ (t.block.remainder? extent).toList.map (⟨·, t.position⟩) ++ after) ∨
    ((∀ t ∈ top, t.block.id ≠ id) ∧ ∃ before t after rest, top = before ++ t :: after ∧
      t.block.take? extent id = some (b, rest) ∧
      left = before ++ { t with block := rest } :: after) := by
  rcases Option.or_eq_some_iff.mp h with h | ⟨hhead, h⟩
  · exact .inl (takeHead?_eq_some h)
  · exact .inr ⟨takeHead?_eq_none hhead, takeInside?_eq_some h⟩

/-- What is taken off and what is left make up what was there. -/
theorem perm_take? (h : take? extent id top = some (b, left)) :
    (topNodes top).Perm (b.nodes ++ topNodes left) := by
  rcases take?_cases h with ⟨before, t, after, rfl, -, -, rfl, rfl⟩ |
    ⟨-, before, t, after, rest, rfl, htake, rfl⟩
  · rw [List.append_assoc, topNodes_append, topNodes_cons, topNodes_append, topNodes_append,
      topNodes_map]
    exact perm_append_middle _ _ (t.block.perm_taken extent)
  · rw [topNodes_append, topNodes_cons, topNodes_append, topNodes_cons]
    exact perm_append_middle _ _ (Block.perm_take? htake)

/-- Chains from which a block has been taken off are made of some of the blocks. -/
theorem subperm_take? (h : take? extent id top = some (b, left)) :
    (topNodes left).Subperm (topNodes top) :=
  (List.sublist_append_right _ _).subperm.trans (perm_take? h).symm.subperm

theorem ordered_take? (htop : ∀ t ∈ top, t.block.Ordered)
    (h : take? extent id top = some (b, left)) :
    b.Ordered ∧ ∀ t ∈ left, t.block.Ordered := by
  rcases take?_cases h with ⟨before, t, after, rfl, -, -, rfl, rfl⟩ |
    ⟨-, before, t, after, rest, rfl, htake, rfl⟩
  · simp only [List.forall_mem_append, List.forall_mem_cons] at htop ⊢
    obtain ⟨hbefore, ht, hafter⟩ := htop
    refine ⟨Children.Ordered.taken ht.1 ht.2 extent, ⟨hbefore, fun u hu => ?_⟩, hafter⟩
    obtain ⟨c, hc, rfl⟩ := List.mem_map.mp hu
    exact ht.remainder? (Option.mem_toList.mp hc)
  · simp only [List.forall_mem_append, List.forall_mem_cons] at htop ⊢
    obtain ⟨hbefore, ht, hafter⟩ := htop
    exact ⟨(ht.take? htake).1, hbefore, (ht.take? htake).2, hafter⟩

/-- Whatever is on the canvas can be taken off. -/
theorem take?_isSome (h : id ∈ (topNodes top).map Node.id) : (take? extent id top).isSome := by
  rw [take?, Option.isSome_or, Bool.or_eq_true]
  by_contra hnone
  rw [not_or, Option.not_isSome_iff_eq_none, Option.not_isSome_iff_eq_none] at hnone
  obtain ⟨hhead, hinside⟩ := hnone
  induction top with
  | nil => cases h
  | cons t ts ih =>
    unfold takeHead? at hhead
    split at hhead
    · split at hhead <;> cases hhead
    · rename_i hid
      rw [takeInside?] at hinside
      split at hinside
      · cases hinside
      · rename_i hb
        rw [topNodes_cons, List.map_append, List.mem_append] at h
        rcases h with h | h
        · exact Block.not_mem_ids_of_take?_eq_none hid hb h
        · exact ih h (Option.map_eq_none_iff.mp hhead) (Option.map_eq_none_iff.mp hinside)

/-- A block taken off with its chain is one of those that were there, with all that hung on
it. -/
theorem mem_walk_of_take? (h : take? .withChain id top = some (b, left)) :
    b ∈ top.flatMap (fun t => t.block.walk) ∧ b.id = id := by
  rcases take?_cases h with ⟨before, t, after, rfl, -, hid, rfl, -⟩ |
    ⟨-, before, t, after, rest, rfl, htake, -⟩
  · exact ⟨List.mem_flatMap.mpr ⟨t, by simp, List.mem_cons_self⟩, hid⟩
  · obtain ⟨hwalk, hid⟩ := Block.mem_walk_of_take? htake
    exact ⟨List.mem_flatMap.mpr ⟨t, by simp, hwalk⟩, hid⟩

end Take

/-! ### Changing one block -/

theorem updateTop?_eq_none_iff {id : BlockId} {f : Block → Block} {top : List TopBlock} :
    updateTop? id f top = none ↔ top.findSome? (fun t => t.block.find? id) = none := by
  induction top with
  | nil => simp [updateTop?]
  | cons t ts ih =>
    rw [updateTop?, List.findSome?_cons]
    cases hb : t.block.update? id f with
    | none => simp [Block.update?_eq_none_iff.mp hb, ih]
    | some b =>
      cases hf : t.block.find? id with
      | none => rw [Block.update?_eq_none_iff.mpr hf] at hb; cases hb
      | some c => simp

/-- A block that is found can be changed. -/
theorem exists_updateTop? {w : Workspace} {id : BlockId} {b : Block} (h : w.find? id = some b)
    (f : Block → Block) : ∃ top, updateTop? id f w.top = some top := by
  refine Option.ne_none_iff_exists'.mp fun hnone => ?_
  rw [show w.find? id = none from updateTop?_eq_none_iff.mp hnone] at h
  cases h

/-- A change is made in the first chain that has the block. -/
theorem updateTop?_eq_some {id : BlockId} {f : Block → Block} {top top' : List TopBlock}
    (h : updateTop? id f top = some top') :
    ∃ before t after b, top = before ++ t :: after ∧ (∀ u ∈ before, u.block.find? id = none) ∧
      t.block.update? id f = some b ∧ top' = before ++ { t with block := b } :: after := by
  induction top generalizing top' with
  | nil => cases h
  | cons t ts ih =>
    rw [updateTop?] at h
    split at h
    · rename_i b hb
      cases h
      exact ⟨[], t, ts, b, rfl, fun _ hu => absurd hu List.not_mem_nil, hb, rfl⟩
    · rename_i hnone
      obtain ⟨us, hr, rfl⟩ := Option.map_eq_some_iff.mp h
      obtain ⟨before, u, after, b, rfl, hbefore, hb, rfl⟩ := ih hr
      exact ⟨t :: before, u, after, b, rfl,
        List.forall_mem_cons.mpr ⟨Block.update?_eq_none_iff.mp hnone, hbefore⟩, hb, rfl⟩

/-- A change is made at the first block with the identity, and the other blocks stay. -/
theorem perm_updateTop? {id : BlockId} {f : Block → Block} {top top' : List TopBlock}
    (h : updateTop? id f top = some top') :
    ∃ b others, top.findSome? (fun t => t.block.find? id) = some b ∧
      (topNodes top).Perm (b.nodes ++ others) ∧ (topNodes top').Perm ((f b).nodes ++ others) := by
  obtain ⟨before, t, after, c, rfl, hbefore, hc, rfl⟩ := updateTop?_eq_some h
  obtain ⟨b, others, hfind, hold, hnew⟩ := Block.perm_update? hc
  refine ⟨b, topNodes before ++ (others ++ topNodes after), ?_, ?_, ?_⟩
  · rw [List.findSome?_append, List.findSome?_eq_none_iff.mpr hbefore, Option.none_or,
      List.findSome?_cons, hfind]
  · rw [topNodes_append, topNodes_cons]
    exact perm_append_middle _ _ hold
  · rw [topNodes_append, topNodes_cons]
    exact perm_append_middle _ _ hnew

theorem ordered_updateTop? {id : BlockId} {f : Block → Block}
    (hf : ∀ b : Block, b.Ordered → (f b).Ordered) {top top' : List TopBlock}
    (htop : ∀ t ∈ top, t.block.Ordered) (h : updateTop? id f top = some top') :
    ∀ t ∈ top', t.block.Ordered := by
  obtain ⟨before, t, after, c, rfl, -, hc, rfl⟩ := updateTop?_eq_some h
  simp only [List.forall_mem_append, List.forall_mem_cons] at htop ⊢
  obtain ⟨hbefore, ht, hafter⟩ := htop
  exact ⟨hbefore, ht.update? hf hc, hafter⟩

end Workspace

end BlockProgram
