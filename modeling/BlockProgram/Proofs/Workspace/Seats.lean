import BlockProgram.Proofs.Workspace.Nodes

/-!
# Where the blocks of a canvas are

The blocks of all chains with their seats, and the heads of the chains in their order. A block
that is taken off leaves its seat to the chain below it, or leaves it empty, and a block that is
changed is changed in its seat; nothing else is touched.
-/

namespace BlockProgram

/-- The blocks of chains with their seats. -/
def topSeats (top : List TopBlock) : List (Node × Seat) :=
  top.flatMap fun t => t.block.seats (.canvas t.position)

/-- The heads of chains with their places, in their order. -/
def topHeads (top : List TopBlock) : List (BlockId × Option Position) :=
  top.map fun t => (t.block.id, t.position)

@[simp] theorem topSeats_nil : topSeats [] = [] := rfl

@[simp] theorem topSeats_cons (t : TopBlock) (ts : List TopBlock) :
    topSeats (t :: ts) = t.block.seats (.canvas t.position) ++ topSeats ts := rfl

@[simp] theorem topSeats_append (ts us : List TopBlock) :
    topSeats (ts ++ us) = topSeats ts ++ topSeats us := List.flatMap_append

@[simp] theorem topHeads_cons (t : TopBlock) (ts : List TopBlock) :
    topHeads (t :: ts) = (t.block.id, t.position) :: topHeads ts := rfl

@[simp] theorem topHeads_append (ts us : List TopBlock) :
    topHeads (ts ++ us) = topHeads ts ++ topHeads us := List.map_append

theorem map_fst_topSeats (top : List TopBlock) : (topSeats top).map Prod.fst = topNodes top := by
  rw [topSeats, topNodes, List.map_flatMap]
  simp only [Block.map_fst_seats]

theorem topSeats_map (position : Option Position) (b : Option Block) :
    topSeats (b.toList.map (⟨·, position⟩)) = b.toList.flatMap (Block.seats (.canvas position)) := by
  rw [topSeats, List.flatMap_map]

/-- The head of a chain is one of its blocks. -/
theorem mem_ids_of_mem_topHeads {top : List TopBlock} {e : BlockId × Option Position}
    (h : e ∈ topHeads top) : e.1 ∈ (topNodes top).map Node.id := by
  obtain ⟨t, ht, rfl⟩ := List.mem_map.mp h
  exact List.mem_map.mpr ⟨t.block.node, List.mem_flatMap.mpr ⟨t, ht, List.mem_cons_self⟩, rfl⟩

/-! ### Heads that give way -/

/-- Heads of chains, the one with an identity replaced by another, in its place, or left out. -/
def giveWay (id : BlockId) (successor : Option BlockId)
    (heads : List (BlockId × Option Position)) : List (BlockId × Option Position) :=
  heads.flatMap fun e => if e.1 = id then successor.toList.map (·, e.2) else [e]

section GiveWay

variable {id : BlockId} {successor : Option BlockId} {heads : List (BlockId × Option Position)}

theorem giveWay_append (heads' : List (BlockId × Option Position)) :
    giveWay id successor (heads ++ heads') =
      giveWay id successor heads ++ giveWay id successor heads' := List.flatMap_append

theorem giveWay_cons_self {e : BlockId × Option Position} (h : e.1 = id) :
    giveWay id successor (e :: heads) =
      successor.toList.map (·, e.2) ++ giveWay id successor heads := by
  rw [giveWay, List.flatMap_cons, if_pos h, giveWay]

theorem giveWay_of_ne (h : ∀ e ∈ heads, e.1 ≠ id) : giveWay id successor heads = heads := by
  have hone : ∀ e ∈ heads, (if e.1 = id then successor.toList.map (·, e.2) else [e]) = [e] :=
    fun e he => if_neg (h e he)
  rw [giveWay, List.flatMap_congr hone, List.flatMap_singleton']

theorem giveWay_none : giveWay id none heads = heads.filter (·.1 ≠ id) := by
  induction heads with
  | nil => rfl
  | cons e heads ih =>
    by_cases he : e.1 = id
    · rw [giveWay_cons_self he, ih]
      simp [he]
    · rw [giveWay, List.flatMap_cons, if_neg he, ← giveWay, ih]
      simp [he]

end GiveWay

/-- With distinct identities a block has one seat. -/
theorem seat_unique {top : List TopBlock} (h : ((topNodes top).map Node.id).Nodup) {n : Node}
    {s t : Seat} (hs : (n, s) ∈ topSeats top) (ht : (n, t) ∈ topSeats top) : s = t := by
  rw [← map_fst_topSeats, List.map_map] at h
  exact congrArg Prod.snd (List.inj_on_of_nodup_map h hs ht rfl)

/-- Wherever a tree is put, the blocks below its root keep their seats. -/
theorem mem_seats_iff_of_ne {b : Option Block} {n : Node} (h : ∀ c, b = some c → n ≠ c.node)
    (seat s t : Seat) : (n, seat) ∈ b.toList.flatMap (Block.seats s) ↔
      (n, seat) ∈ b.toList.flatMap (Block.seats t) := by
  cases b with
  | none => exact Iff.rfl
  | some c => simp [Block.seats, h c rfl]

namespace Workspace

/-- The blocks of a canvas with their seats. -/
def seats (w : Workspace) : List (Node × Seat) := topSeats w.top

/-- The heads of the chains of a canvas with their places, in their order. -/
def heads (w : Workspace) : List (BlockId × Option Position) := topHeads w.top

theorem mem_nodes_of_mem_seats {w : Workspace} {e : Node × Seat} (h : e ∈ w.seats) :
    e.1 ∈ w.nodes := by
  rw [nodes, ← map_fst_topSeats]
  exact List.mem_map_of_mem h

theorem find?_eq_none_iff {w : Workspace} {id : BlockId} :
    w.find? id = none ↔ id ∉ w.nodes.map Node.id := by
  rw [← find?_isSome_iff, Option.not_isSome_iff_eq_none]

/-- With distinct identities, a block is found by its own. -/
theorem find?_of_mem_walk {w : Workspace} (hids : (w.nodes.map Node.id).Nodup) {b : Block}
    (hb : b ∈ w.walk) : w.find? b.id = some b := by
  obtain ⟨c, hc⟩ := Option.isSome_iff_exists.mp (find?_isSome_iff.mpr (mem_ids_of_mem_walk hb))
  obtain ⟨hcw, hcid⟩ := mem_walk_of_find? hc
  rw [hc, eq_of_id_eq hids hcw hb hcid]

/-! ### Taking off -/

section Take

variable {extent : Extent} {id : BlockId} {b : Block} {top left : List TopBlock}

/-- A block that is taken off leaves its seat to the chain that moves up, and all other blocks keep
theirs. -/
theorem perm_seats_take? (h : take? extent id top = some (b, left)) :
    ∃ c seat others, c ∈ top.flatMap (fun t => t.block.walk) ∧ c.id = id ∧
      b = Children.taken extent c.node c.children ∧
      (topSeats top).Perm (c.seats seat ++ others) ∧
      (topSeats left).Perm ((c.remainder? extent).toList.flatMap (Block.seats seat) ++ others) := by
  rcases take?_cases h with ⟨before, t, after, rfl, -, hid, hb, rfl⟩ |
    ⟨-, before, t, after, rest, rfl, htake, rfl⟩
  · refine ⟨t.block, .canvas t.position, topSeats before ++ topSeats after, ?_, hid, hb, ?_, ?_⟩
    · exact List.mem_flatMap.mpr ⟨t, by simp, List.mem_cons_self⟩
    · rw [topSeats_append, topSeats_cons]
      exact List.perm_append_comm_assoc _ _ _
    · rw [List.append_assoc, topSeats_append, topSeats_append, topSeats_map]
      exact List.perm_append_comm_assoc _ _ _
  · obtain ⟨parent, s, n, below, after', hid, hb, hnode, hex⟩ := Block.exchanged_of_take? htake
    obtain ⟨seat, others, hold, hnew⟩ := Block.perm_seats_exchanged hnode hex (.canvas t.position)
    refine ⟨⟨n, below⟩, seat, topSeats before ++ (others ++ topSeats after), ?_, hid, hb, ?_, ?_⟩
    · refine List.mem_flatMap.mpr ⟨t, by simp, List.mem_cons_of_mem _ ?_⟩
      exact hex.walk_subset List.mem_cons_self
    · rw [topSeats_append, topSeats_cons]
      exact perm_append_middle _ _ hold
    · rw [topSeats_append, topSeats_cons]
      exact perm_append_middle _ _ hnew

/-- Distinct identities stay distinct, and no block is both taken off and left. -/
theorem nodup_take? (hids : ((topNodes top).map Node.id).Nodup)
    (h : take? extent id top = some (b, left)) :
    (b.nodes.map Node.id ++ (topNodes left).map Node.id).Nodup := by
  rw [← List.map_append]
  exact ((perm_take? h).map Node.id).nodup_iff.mp hids

/-- With distinct identities, of the heads of chains only the block itself gives way to the chain
that moves up. -/
theorem heads_take? {w : Workspace} (hids : (w.nodes.map Node.id).Nodup)
    (h : take? extent id w.top = some (b, left)) {c : Block} (hc : c ∈ w.walk) (hcid : c.id = id) :
    topHeads left = giveWay id ((c.remainder? extent).map Block.id) w.heads := by
  rcases take?_cases h with ⟨before, t, after, htop, -, hid, hb, rfl⟩ |
    ⟨hne, before, t, after, rest, htop, htake, rfl⟩
  · have hhead : t.block ∈ w.walk :=
      List.mem_flatMap.mpr ⟨t, by simp [htop], List.mem_cons_self⟩
    obtain rfl : c = t.block := eq_of_id_eq hids hc hhead (hcid.trans hid.symm)
    -- no other chain begins with the identity
    rw [nodes, htop, topNodes_append, topNodes_cons, Block.nodes, List.cons_append, List.map_append,
      List.map_cons, List.map_append] at hids
    obtain ⟨hnot, -⟩ := List.nodup_cons.mp (List.nodup_middle.mp hids)
    simp only [List.mem_append, not_or] at hnot
    have hout : ∀ ts : List TopBlock, t.block.id ∉ (topNodes ts).map Node.id →
        ∀ e ∈ topHeads ts, e.1 ≠ id := by
      rintro ts hts e he rfl
      exact hts (hid ▸ mem_ids_of_mem_topHeads he)
    rw [heads, htop, topHeads_append, topHeads_append, topHeads_append, topHeads_cons, giveWay_append,
      giveWay_of_ne (hout before hnot.1), giveWay_cons_self hid,
      giveWay_of_ne (hout after hnot.2.2), List.append_assoc]
    simp [topHeads, Option.toList_map, List.map_map, Function.comp_def]
  · have hroot : rest.id = t.block.id := by
      obtain ⟨-, -, -, -, -, -, -, hnode, -⟩ := Block.exchanged_of_take? htake
      exact congrArg Node.id hnode
    rw [giveWay_of_ne]
    · simp [heads, htop, hroot]
    · intro e he
      obtain ⟨u, hu, rfl⟩ := List.mem_map.mp he
      exact hne u hu

/-- With distinct identities, a block that is on the canvas is taken off: the chain that moves up
is where it was, the other blocks keep their seats, and the other heads their order. -/
theorem exists_take? {w : Workspace} (hids : (w.nodes.map Node.id).Nodup)
    (hb : w.find? id = some b) (extent : Extent) :
    ∃ left seat others,
      take? extent id w.top = some (Children.taken extent b.node b.children, left) ∧
      w.seats.Perm (b.seats seat ++ others) ∧
      (topSeats left).Perm ((b.remainder? extent).toList.flatMap (Block.seats seat) ++ others) ∧
      topHeads left = giveWay id ((b.remainder? extent).map Block.id) w.heads := by
  obtain ⟨hbw, hbid⟩ := mem_walk_of_find? hb
  have hthere : (take? extent id w.top).isSome :=
    take?_isSome (find?_isSome_iff.mp (Option.isSome_of_eq_some hb))
  obtain ⟨⟨taken, left⟩, htake⟩ := Option.isSome_iff_exists.mp hthere
  obtain ⟨c, seat, others, hc, hcid, rfl, hold, hnew⟩ := perm_seats_take? htake
  obtain rfl : c = b := eq_of_id_eq hids hc hbw (hcid.trans hbid.symm)
  exact ⟨left, seat, others, htake, hold, hnew, heads_take? hids htake hbw hbid⟩

end Take

/-! ### Changing one block -/

/-- A block that is changed is changed in its seat, and all other blocks keep theirs. -/
theorem perm_seats_updateTop? {id : BlockId} {f : Block → Block} {top top' : List TopBlock}
    (h : updateTop? id f top = some top') :
    ∃ c seat others, c ∈ top.flatMap (fun t => t.block.walk) ∧ c.id = id ∧
      (topSeats top).Perm (c.seats seat ++ others) ∧
      (topSeats top').Perm ((f c).seats seat ++ others) := by
  obtain ⟨before, t, after, b, rfl, -, hb, rfl⟩ := updateTop?_eq_some h
  rcases Block.update?_cases hb with ⟨hid, -, rfl⟩ |
    ⟨parent, s, n, below, rest, hid, -, hnode, hex⟩
  · refine ⟨t.block, .canvas t.position, topSeats before ++ topSeats after, ?_, hid, ?_, ?_⟩
    · exact List.mem_flatMap.mpr ⟨t, by simp, List.mem_cons_self⟩
    · rw [topSeats_append, topSeats_cons]
      exact List.perm_append_comm_assoc _ _ _
    · rw [topSeats_append, topSeats_cons]
      exact List.perm_append_comm_assoc _ _ _
  · obtain ⟨seat, others, hold, hnew⟩ := Block.perm_seats_exchanged hnode hex (.canvas t.position)
    rw [Option.toList_some, List.flatMap_singleton] at hnew
    refine ⟨⟨n, below⟩, seat, topSeats before ++ (others ++ topSeats after), ?_, hid, ?_, ?_⟩
    · refine List.mem_flatMap.mpr ⟨t, by simp, List.mem_cons_of_mem _ ?_⟩
      exact hex.walk_subset List.mem_cons_self
    · rw [topSeats_append, topSeats_cons]
      exact perm_append_middle _ _ hold
    · rw [topSeats_append, topSeats_cons]
      exact perm_append_middle _ _ hnew

/-- A change that keeps the identity of the block leaves the heads of the chains. -/
theorem heads_updateTop? {id : BlockId} {f : Block → Block} (hf : ∀ b, (f b).id = b.id)
    {top top' : List TopBlock} (h : updateTop? id f top = some top') :
    topHeads top' = topHeads top := by
  obtain ⟨before, t, after, b, rfl, -, hb, rfl⟩ := updateTop?_eq_some h
  have hroot : b.id = t.block.id := by
    rcases Block.update?_cases hb with ⟨-, -, rfl⟩ | ⟨-, -, -, -, -, -, -, hnode, -⟩
    · exact hf t.block
    · exact congrArg Node.id hnode
  rw [topHeads_append, topHeads_append, topHeads_cons, topHeads_cons, hroot]

/-! ### Who is in a slot -/

/-- A block has a slot for a seat exactly if it is in that slot of a block of the canvas. -/
theorem mem_seats_slot_iff {w : Workspace} (hw : w.Ordered) {parent : BlockId} {slot : Slot}
    {m : Node} : (m, .slot parent slot) ∈ w.seats ↔
      ∃ c ∈ w.walk, c.id = parent ∧ ∃ d, c.children.get? slot = some d ∧ d.node = m := by
  constructor
  · intro hm
    obtain ⟨t, ht, hm⟩ := List.mem_flatMap.mp hm
    obtain ⟨c, hc, hd⟩ := (Block.mem_seats_slot_iff (hw t ht)).mp hm
    exact ⟨c, List.mem_flatMap.mpr ⟨t, ht, hc⟩, hd⟩
  · rintro ⟨c, hc, hd⟩
    obtain ⟨t, ht, hc⟩ := List.mem_flatMap.mp hc
    exact List.mem_flatMap.mpr ⟨t, ht, (Block.mem_seats_slot_iff (hw t ht)).mpr ⟨c, hc, hd⟩⟩

end Workspace

end BlockProgram
