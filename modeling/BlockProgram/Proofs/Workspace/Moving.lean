import BlockProgram.Proofs.Workspace.Seats
import BlockProgram.Proofs.Workspace.Sound

/-!
# Moving a chain

A block that is moved takes the chain below it along. Whoever is in the slot it goes to once the
chain has been lifted out makes room: in a chain or a body at the end of the moved chain, in a value
input at the end of the canvas. All other blocks stay where they are, on what they hang on, and the
other chains stay in their order.
-/

namespace BlockProgram

/-- The block into whose slot a chain goes. -/
def Placement.target? : Placement → Option BlockId
  | .canvas _ => none
  | .slot target _ => some target

/-- The seat of a block that has been moved. -/
def Placement.seat : Placement → Seat
  | .canvas position => .canvas (some position)
  | .slot target s => .slot target s

/-- The seat of a block that has made room in a slot for a chain with a given last block. -/
def Slot.refuge (last : BlockId) : Slot → Seat
  | .input _ => .canvas none
  | .statement _ => .slot last .next
  | .next => .slot last .next

namespace Workspace

/-- The block that has to make room for a chain: the one in the slot where the chain goes, unless
it is the block that is moved, which leaves the slot empty when it is lifted out. -/
def displaced? (w : Workspace) (id : BlockId) : Placement → Option Node
  | .canvas _ => none
  | .slot target slot =>
    (w.seats.find? fun e => e.2 = .slot target slot && e.1.id ≠ id).map Prod.fst

/-- The heads of the chains that a move puts at the end of the canvas. -/
def arrivals (w : Workspace) (id : BlockId) :
    Placement → List (BlockId × Option Position)
  | .canvas position => [(id, some position)]
  | .slot target (.input name) =>
    (w.displaced? id (.slot target (.input name))).toList.map fun n => (n.id, none)
  | .slot _ (.statement _) => []
  | .slot _ .next => []

/-- What a canvas is like when a block has been moved. -/
structure Moved (w : Workspace) (moving : Block) (placement : Placement) (w' : Workspace) :
    Prop where
  /-- No block is lost, none comes up twice, and each is as it was. -/
  nodes : w'.nodes.Perm w.nodes
  /-- The block is where it was to go. -/
  moved : (moving.node, placement.seat) ∈ w'.seats
  /-- All that hangs on the block, the chain below it too, hangs where it did. -/
  along : moving.children.seats moving.id ⊆ w'.seats
  /-- The block that has to make room goes below the last block of the chain, or to the canvas. -/
  displaced : ∀ target slot n, placement = .slot target slot →
    w.displaced? moving.id placement = some n → (n, slot.refuge moving.last.id) ∈ w'.seats
  /-- Every other block is where it was. -/
  others : ∀ n, n ≠ moving.node → w.displaced? moving.id placement ≠ some n →
    ∀ seat, (n, seat) ∈ w'.seats ↔ (n, seat) ∈ w.seats
  /-- The other chains are in their order and at their places, and what arrives on the canvas comes
  after them. -/
  heads : w'.heads = w.heads.filter (·.1 ≠ moving.id) ++ w.arrivals moving.id placement
  /-- The variables are those that were there. -/
  registry : w'.registry = w.registry
  /-- No identity has been made up. -/
  minted : w'.minted = w.minted

/-! ### Putting a chain into a slot -/

/-- The block keeps its seat, the chain is in the slot, and what was there makes room. -/
theorem perm_seats_plugChain {b : Block} (hb : b.Ordered) (slot : Slot) (chain : Block)
    (seat : Seat) :
    ((plugChain slot chain b).seats seat ++
      (bumped? slot b).toList.flatMap (Block.seats (.canvas none))).Perm
    (chain.seats (.slot b.id slot) ++
      ((b.children.get? slot).toList.flatMap (Block.seats (slot.refuge chain.last.id)) ++
        (b.node, seat) :: (b.children.erase slot).seats b.id)) := by
  have hspliced : ∀ d, ((b.plug slot (chain.follow d)).seats seat).Perm
      (chain.seats (.slot b.id slot) ++ (d.seats (.slot chain.last.id .next) ++
        (b.node, seat) :: (b.children.erase slot).seats b.id)) := by
    intro d
    refine (Block.perm_seats_plug hb slot (chain.follow d) seat).trans ?_
    rw [← List.append_assoc]
    exact (Block.perm_seats_follow chain d _).append_right _
  cases slot with
  | input name =>
    refine ((Block.perm_seats_plug hb _ chain seat).append_right _).trans ?_
    rw [List.append_assoc]
    exact List.perm_append_comm.append_left _
  | statement name =>
    simp only [plugChain, bumped?, Option.toList_none, List.flatMap_nil, List.append_nil]
    cases hd : b.children.get? (.statement name) with
    | none => exact Block.perm_seats_plug hb _ chain seat
    | some d => simpa [Slot.refuge] using hspliced d
  | next =>
    simp only [plugChain, bumped?, Option.toList_none, List.flatMap_nil, List.append_nil]
    cases hd : b.children.get? .next with
    | none => exact Block.perm_seats_plug hb _ chain seat
    | some d => simpa [Slot.refuge] using hspliced d

theorem id_plugChain (slot : Slot) (chain b : Block) : (plugChain slot chain b).id = b.id := by
  unfold plugChain
  split
  · rfl
  · split <;> rfl

/-- With distinct identities, a chain finds its place in a slot of a block that is there. -/
theorem exists_attach {w : Workspace} (hw : w.Ordered) (hids : (w.nodes.map Node.id).Nodup)
    (chain : Block) (previous : Option Position) {target : BlockId} {b : Block}
    (hb : w.find? target = some b) (slot : Slot) :
    ∃ top others, w.attach chain previous target slot = (.ok (), { w with top := top }) ∧
      w.seats.Perm ((b.children.get? slot).toList.flatMap (Block.seats (.slot target slot)) ++
        others) ∧
      (topSeats top).Perm (chain.seats (.slot target slot) ++
        ((b.children.get? slot).toList.flatMap (Block.seats (slot.refuge chain.last.id)) ++
          others)) ∧
      topHeads top = w.heads ++ (bumped? slot b).toList.map fun d => (d.id, none) := by
  obtain ⟨hbw, rfl⟩ := mem_walk_of_find? hb
  obtain ⟨top, htop⟩ := exists_updateTop? hb (plugChain slot chain)
  obtain ⟨c, seat, others, hc, hcid, hold, hnew⟩ := perm_seats_updateTop? htop
  obtain rfl : c = b := eq_of_id_eq hids hc hbw hcid
  obtain ⟨t, ht, hct⟩ := List.mem_flatMap.mp hbw
  have hordered : c.Ordered := (hw t ht).walk hct
  refine ⟨top ++ (bumped? slot c).toList.map (⟨·, none⟩),
    (c.node, seat) :: (c.children.erase slot).seats c.id ++ others, by simp [attach, hb, htop],
    ?_, ?_, ?_⟩
  · rw [← List.append_assoc]
    exact hold.trans ((c.perm_seats_slot slot seat).append_right others)
  · rw [topSeats_append, topSeats_map]
    refine (hnew.append_right _).trans ?_
    rw [List.append_assoc]
    refine (List.perm_append_comm.append_left _).trans ?_
    rw [← List.append_assoc]
    refine ((perm_seats_plugChain hordered slot chain seat).append_right others).trans ?_
    simp only [List.append_assoc]
    exact List.Perm.refl _
  · rw [topHeads_append, heads_updateTop? (id_plugChain slot chain) htop]
    simp [heads, topHeads, Function.comp_def]

/-! ### What is to be said against a move -/

section Fault

variable {w : Workspace} {moving : Block} {placement : Placement}

theorem moveFault?_slot (target : BlockId) (slot : Slot) :
    moveFault? w moving (.slot target slot) =
      if target ∈ moving.ids then some (.cyclicAttachment moving.id target)
      else if target ∈ w.nodes.map Node.id then none else some (.unknownBlock target) := by
  have hcontains : moving.contains target = true ↔ target ∈ moving.ids := by
    rw [Block.contains, Block.find?_isSome_iff, Block.ids_eq]
  have hmissing : (w.find? target).isNone = true ↔ target ∉ w.nodes.map Node.id := by
    rw [Option.isNone_iff_eq_none, find?_eq_none_iff]
  simp only [moveFault?, hcontains, hmissing, ite_not]

theorem moveFault?_eq_none_iff : moveFault? w moving placement = none ↔
    ∀ target, placement.target? = some target →
      target ∉ moving.ids ∧ target ∈ w.nodes.map Node.id := by
  cases placement with
  | canvas position => simp [moveFault?, Placement.target?]
  | slot target s =>
    rw [moveFault?_slot]
    by_cases hin : target ∈ moving.ids <;> simp [hin, Placement.target?]

theorem moveFault?_eq_cyclicAttachment_iff {target : BlockId} :
    moveFault? w moving placement = some (.cyclicAttachment moving.id target) ↔
      placement.target? = some target ∧ target ∈ moving.ids := by
  cases placement with
  | canvas position => simp [moveFault?, Placement.target?]
  | slot target' s =>
    rw [moveFault?_slot, Placement.target?, Option.some.injEq]
    constructor
    · intro h
      split at h
      · rename_i hin
        cases h
        exact ⟨rfl, hin⟩
      · split at h <;> cases h
    · rintro ⟨rfl, hin⟩
      rw [if_pos hin]

theorem moveFault?_eq_unknownBlock_iff {target : BlockId} :
    moveFault? w moving placement = some (.unknownBlock target) ↔
      placement.target? = some target ∧ target ∉ moving.ids ∧ target ∉ w.nodes.map Node.id := by
  cases placement with
  | canvas position => simp [moveFault?, Placement.target?]
  | slot target' s =>
    rw [moveFault?_slot, Placement.target?, Option.some.injEq]
    constructor
    · intro h
      split at h
      · cases h
      · rename_i hout
        split at h
        · cases h
        · rename_i hmissing
          cases h
          exact ⟨rfl, hout, hmissing⟩
    · rintro ⟨rfl, hout, hmissing⟩
      rw [if_neg hout, if_neg hmissing]

end Fault

/-! ### Lifting a chain out and putting it in -/

section Move

variable {w : Workspace} {id : BlockId} {moving : Block}

/-- A chain that has been lifted out, and the canvas without it. -/
theorem exists_lift (hw : w.Ordered) (hids : (w.nodes.map Node.id).Nodup)
    (hfind : w.find? id = some moving) :
    ∃ left seat, take? .withChain id w.top = some (moving, left) ∧
      w.seats.Perm (moving.seats seat ++ topSeats left) ∧
      topHeads left = w.heads.filter (·.1 ≠ id) ∧ (∀ t ∈ left, t.block.Ordered) ∧
      (moving.nodes.map Node.id ++ (topNodes left).map Node.id).Nodup := by
  obtain ⟨left, seat, others, htake, hold, hnew, hheads⟩ := exists_take? hids hfind .withChain
  exact ⟨left, seat, htake, hold.trans (hnew.symm.append_left _), hheads.trans giveWay_none,
    (ordered_take? hw htake).2, nodup_take? hids htake⟩

/-- Once the chain has been lifted out, the block that has to make room is in the slot. -/
theorem displaced?_eq {v : Workspace} (hmoving : moving.Ordered) (hv : v.Ordered)
    (hids : (moving.nodes.map Node.id ++ v.nodes.map Node.id).Nodup) {seat : Seat}
    (hseats : w.seats.Perm (moving.seats seat ++ v.seats)) {b : Block} (hb : b ∈ v.walk)
    (slot : Slot) :
    w.displaced? moving.id (.slot b.id slot) = (b.children.get? slot).map Block.node := by
  obtain ⟨-, hnodup, hapart⟩ := List.nodup_append.mp hids
  -- whoever is in the slot and is not moved is still in the slot when the chain is gone
  have hslot : ∀ n : Node, n.id ≠ moving.id → (n, .slot b.id slot) ∈ w.seats →
      ∃ d, b.children.get? slot = some d ∧ d.node = n := by
    intro n hne hn
    rcases List.mem_append.mp (hseats.mem_iff.mp hn) with hn | hn
    · rcases List.mem_cons.mp hn with heq | hn
      · exact absurd (congrArg (fun e => e.1.id) heq) hne
      · have hin : b.id ∈ moving.ids := by
          rcases Children.exists_get?_of_mem_seats hmoving.2 hn with ⟨hroot, -⟩ | ⟨c, hc, hcid, -⟩
          · exact hroot ▸ List.mem_cons_self
          · exact List.mem_map.mpr ⟨c, List.mem_cons_of_mem _ hc, hcid⟩
        rw [Block.ids_eq] at hin
        exact absurd rfl (hapart _ hin _ (mem_ids_of_mem_walk hb))
    · obtain ⟨c, hc, hcid, hd⟩ := (mem_seats_slot_iff hv).mp hn
      rwa [eq_of_id_eq hnodup hc hb hcid] at hd
  rw [displaced?]
  cases hfind : w.seats.find? fun e => e.2 = .slot b.id slot && e.1.id ≠ moving.id with
  | some e =>
    obtain ⟨n, s⟩ := e
    have hn := List.mem_of_find?_eq_some hfind
    have hsat := List.find?_some hfind
    simp only [Bool.and_eq_true, decide_eq_true_eq] at hsat
    obtain ⟨rfl, hne⟩ := hsat
    obtain ⟨d, hd, rfl⟩ := hslot n hne hn
    rw [hd]
    rfl
  | none =>
    cases hd : b.children.get? slot with
    | none => rfl
    | some d =>
      have hin : (d.node, .slot b.id slot) ∈ v.seats :=
        (mem_seats_slot_iff hv).mpr ⟨b, hb, rfl, d, hd, rfl⟩
      have hne : d.node.id ≠ moving.id := fun heq => hapart moving.id List.mem_cons_self _
        (List.mem_map_of_mem (mem_nodes_of_mem_seats hin)) heq.symm
      have hnone := List.find?_eq_none.mp hfind _ (hseats.mem_iff.mpr (List.mem_append_right _ hin))
      simp [hne] at hnone

/-- The seats before and after tell that a block has been moved. -/
theorem Moved.of_perm {w' : Workspace} {placement : Placement} (displaced : Option Block)
    (others : List (Node × Seat)) {was : Seat} (held room : Seat)
    (hold : w.seats.Perm (moving.seats was ++
      (displaced.toList.flatMap (Block.seats held) ++ others)))
    (hnew : w'.seats.Perm (moving.seats placement.seat ++
      (displaced.toList.flatMap (Block.seats room) ++ others)))
    (hdisplaced : w.displaced? moving.id placement = displaced.map Block.node)
    (hroom : ∀ target slot, placement = .slot target slot → room = slot.refuge moving.last.id)
    (hheads : w'.heads = w.heads.filter (·.1 ≠ moving.id) ++ w.arrivals moving.id placement)
    (hregistry : w'.registry = w.registry) (hminted : w'.minted = w.minted) :
    w.Moved moving placement w' := by
  refine ⟨?_, ?_, ?_, ?_, ?_, hheads, hregistry, hminted⟩
  · have hnodes : ∀ seat t : Seat, (moving.seats seat ++ (displaced.toList.flatMap (Block.seats t) ++
        others)).map Prod.fst =
          moving.nodes ++ (displaced.toList.flatMap Block.nodes ++ others.map Prod.fst) := by
      intro seat t
      rw [List.map_append, List.map_append, List.map_flatMap]
      simp only [Block.map_fst_seats]
    rw [Workspace.nodes, Workspace.nodes, ← map_fst_topSeats, ← map_fst_topSeats]
    refine (hnew.map Prod.fst).trans (List.Perm.trans ?_ (hold.map Prod.fst).symm)
    rw [hnodes, hnodes]
  · exact hnew.mem_iff.mpr List.mem_cons_self
  · exact fun e he => hnew.mem_iff.mpr (List.mem_append_left _ (List.mem_cons_of_mem _ he))
  · intro target slot n hplacement hn
    rw [hdisplaced] at hn
    obtain ⟨d, rfl, rfl⟩ := Option.map_eq_some_iff.mp hn
    rw [← hroom target slot hplacement]
    exact hnew.mem_iff.mpr (by simp [Block.seats])
  · intro n hne hn seat
    have hdne : ∀ d, displaced = some d → n ≠ d.node := by
      rintro d rfl rfl
      exact hn hdisplaced
    have hmoving := mem_seats_iff_of_ne (b := some moving) (n := n)
      (fun c hc => by cases hc; exact hne) seat placement.seat was
    simp only [Option.toList_some, List.flatMap_singleton] at hmoving
    rw [hnew.mem_iff, hold.mem_iff, List.mem_append, List.mem_append, List.mem_append,
      List.mem_append, hmoving, mem_seats_iff_of_ne hdne seat room held]

/-- A block that is there is moved, if nothing is to be said against it. -/
theorem exists_moved (hw : w.Ordered) (hids : (w.nodes.map Node.id).Nodup)
    (hfind : w.find? id = some moving) {placement : Placement}
    (hfault : moveFault? w moving placement = none) :
    ∃ w', w.move id placement = (.ok (), w') ∧ w.Moved moving placement w' := by
  obtain ⟨left, seat, htake, hseats, hheads, hordered, hnodup⟩ := exists_lift hw hids hfind
  obtain ⟨hmoving, rfl⟩ := mem_walk_of_find? hfind
  cases placement with
  | canvas position =>
    refine ⟨{ w with top := left ++ [⟨moving, some position⟩] },
      by simp [move, hfind, hfault, htake], ?_⟩
    refine .of_perm none (topSeats left) seat seat hseats ?_ rfl (by rintro _ _ ⟨⟩) ?_ rfl rfl
    · show (topSeats (left ++ [⟨moving, some position⟩])).Perm _
      rw [topSeats_append, topSeats_cons, topSeats_nil, List.append_nil]
      exact List.perm_append_comm
    · show topHeads (left ++ [⟨moving, some position⟩]) = _
      rw [topHeads_append, hheads]
      rfl
  | slot target slot =>
    let v : Workspace := { w with top := left }
    have hv : (v.nodes.map Node.id).Nodup := (List.nodup_append.mp hnodup).2.1
    have htarget : target ∈ v.nodes.map Node.id := by
      obtain ⟨hout, hthere⟩ := moveFault?_eq_none_iff.mp hfault target rfl
      have hin := ((perm_take? htake).map Node.id).mem_iff.mp hthere
      rw [List.map_append, List.mem_append] at hin
      exact hin.resolve_left fun hin => hout (moving.ids_eq ▸ hin)
    obtain ⟨b, hb⟩ := Option.isSome_iff_exists.mp (find?_isSome_iff.mpr htarget)
    obtain ⟨hbw, rfl⟩ := mem_walk_of_find? hb
    obtain ⟨top, others, hattach, hwas, hnew, hadded⟩ :=
      exists_attach (w := v) hordered hv moving (w.positionOf moving.id) hb slot
    have hmoved : moving.Ordered := by
      obtain ⟨t, ht, hmoving⟩ := List.mem_flatMap.mp hmoving
      exact (hw t ht).walk hmoving
    have hdisplaced : w.displaced? moving.id (.slot b.id slot) =
        (b.children.get? slot).map Block.node :=
      displaced?_eq (v := v) hmoved hordered hnodup hseats hbw slot
    refine ⟨{ w with top := top }, by simp only [move, hfind, hfault, htake]; exact hattach, ?_⟩
    refine .of_perm (b.children.get? slot) others (.slot b.id slot) (slot.refuge moving.last.id)
      (hseats.trans (hwas.append_left _)) hnew hdisplaced
      (fun _ _ h => by cases h; rfl) ?_ rfl rfl
    show topHeads top = _
    rw [hadded, show v.heads = w.heads.filter (·.1 ≠ moving.id) from hheads]
    cases slot with
    | input name =>
      simp only [arrivals, hdisplaced, bumped?, Option.toList_map, List.map_map]
      rfl
    | statement name => rfl
    | next => rfl

/-! ### What a move is answered -/

theorem move_of_fault {placement : Placement} {fault : EditError}
    (hfind : w.find? id = some moving) (hfault : moveFault? w moving placement = some fault) :
    w.move id placement = (.error fault, w) := by
  simp only [move, hfind, hfault]

theorem move_eq_ok_iff (hw : w.Ordered) (hids : (w.nodes.map Node.id).Nodup)
    (hfind : w.find? id = some moving) {placement : Placement} :
    (w.move id placement).1 = .ok () ↔ moveFault? w moving placement = none := by
  cases hfault : moveFault? w moving placement with
  | none =>
    obtain ⟨w', hmove, -⟩ := exists_moved hw hids hfind hfault
    simp [hmove]
  | some fault => simp [move_of_fault hfind hfault]

theorem move_eq_error_iff (hw : w.Ordered) (hids : (w.nodes.map Node.id).Nodup)
    (hfind : w.find? id = some moving) {placement : Placement} {fault : EditError} :
    (w.move id placement).1 = .error fault ↔ moveFault? w moving placement = some fault := by
  cases hfault : moveFault? w moving placement with
  | none =>
    obtain ⟨w', hmove, -⟩ := exists_moved hw hids hfind hfault
    simp [hmove]
  | some fault' => simp [move_of_fault hfind hfault]

end Move

/-- **What a move does.** With distinct identities, it is answered that the block is not there
exactly if it is not; otherwise that the target is in the chain exactly if it is the block or hangs
on it, directly or further down; otherwise that the target is not there exactly if it is not; and
otherwise the block is moved. A move that is refused changes nothing. -/
theorem move_answer_and_effect {w : Workspace} (hw : w.Ordered)
    (hids : (w.nodes.map Node.id).Nodup) (id : BlockId) (placement : Placement) :
    ((w.move id placement).1 = .error (.unknownBlock id) ↔ id ∉ w.nodes.map Node.id) ∧
    (∀ moving ∈ w.walk, moving.id = id →
      (∀ target, (w.move id placement).1 = .error (.cyclicAttachment id target) ↔
        placement.target? = some target ∧ target ∈ moving.ids) ∧
      (∀ target, (w.move id placement).1 = .error (.unknownBlock target) ↔
        placement.target? = some target ∧ target ∉ moving.ids ∧ target ∉ w.nodes.map Node.id) ∧
      ((w.move id placement).1 = .ok () ↔ ∀ target, placement.target? = some target →
        target ∉ moving.ids ∧ target ∈ w.nodes.map Node.id) ∧
      ((w.move id placement).1 = .ok () → w.Moved moving placement (w.move id placement).2)) ∧
    ((w.move id placement).1 ≠ .ok () → (w.move id placement).2 = w) := by
  by_cases hthere : id ∈ w.nodes.map Node.id
  · obtain ⟨moving, hfind⟩ := Option.isSome_iff_exists.mp (find?_isSome_iff.mpr hthere)
    obtain ⟨hwalk, rfl⟩ := mem_walk_of_find? hfind
    refine ⟨?_, fun b hb hid => ?_, fun hnot => ?_⟩
    · rw [move_eq_error_iff hw hids hfind, moveFault?_eq_unknownBlock_iff]
      exact ⟨fun h => h.2.2, fun h => absurd hthere h⟩
    · obtain rfl : b = moving := eq_of_id_eq hids hb hwalk hid
      refine ⟨fun target => ?_, fun target => ?_, ?_, fun hok => ?_⟩
      · rw [move_eq_error_iff hw hids hfind, moveFault?_eq_cyclicAttachment_iff]
      · rw [move_eq_error_iff hw hids hfind, moveFault?_eq_unknownBlock_iff]
      · rw [move_eq_ok_iff hw hids hfind, moveFault?_eq_none_iff]
      · obtain ⟨w', hmove, hmoved⟩ :=
          exists_moved hw hids hfind ((move_eq_ok_iff hw hids hfind).mp hok)
        rw [hmove]
        exact hmoved
    · rw [Ne, move_eq_ok_iff hw hids hfind] at hnot
      obtain ⟨fault, hfault⟩ := Option.ne_none_iff_exists'.mp hnot
      rw [move_of_fault hfind hfault]
  · have hmove : w.move id placement = (.error (.unknownBlock id), w) := by
      rw [move, find?_eq_none_iff.mpr hthere]
    rw [hmove]
    refine ⟨⟨fun _ => hthere, fun _ => rfl⟩, ?_, fun _ => rfl⟩
    rintro moving hmoving rfl
    exact absurd (mem_ids_of_mem_walk hmoving) hthere

/-- In a chain of four, the last two are moved up below the first, and the second goes to the end
of the chain. -/
theorem move_answer_and_effect_upward :
    let print (id : String) : Node := ⟨⟨id⟩, .print, .empty⟩
    let w : Workspace := .ofParts
      [⟨⟨print "a", .cons .next (print "b") (.cons .next (print "c")
        (.cons (.input "VALUE") (print "v") .nil (.cons .next (print "d") .nil .nil)) .nil) .nil⟩,
        none⟩] .empty
    let placement : Placement := .slot ⟨"a"⟩ .next
    w.Ordered ∧ (w.nodes.map Node.id).Nodup ∧ w.displaced? ⟨"c"⟩ placement = some (print "b") ∧
      ∃ moving ∈ w.walk, moving.id = ⟨"c"⟩ ∧ (w.move ⟨"c"⟩ placement).1 = .ok () ∧
        w.Moved moving placement (w.move ⟨"c"⟩ placement).2 := by
  intro print w placement
  have hw : w.Ordered := by
    intro t ht
    obtain rfl := List.mem_singleton.mp ht
    simp [Block.Ordered, Children.Ordered, Slot.before, print, Fields.sorted_empty]
  have hids : (w.nodes.map Node.id).Nodup := by decide
  obtain ⟨moving, hfind⟩ : ∃ moving, w.find? ⟨"c"⟩ = some moving := ⟨_, rfl⟩
  obtain ⟨hmoving, hid⟩ := mem_walk_of_find? hfind
  have hok : (w.move ⟨"c"⟩ placement).1 = .ok () := by decide
  have hmove := (move_answer_and_effect hw hids ⟨"c"⟩ placement).2.1 moving hmoving hid
  exact ⟨hw, hids, by decide, moving, hmoving, hid, hok, hmove.2.2.2 hok⟩

end Workspace

end BlockProgram
