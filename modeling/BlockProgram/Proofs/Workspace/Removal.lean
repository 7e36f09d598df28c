import BlockProgram.Proofs.Workspace.Seats

/-!
# Deleting a block

A block that is deleted goes with what is plugged into it, and the chain below it moves up to where
it was. All other blocks stay where they are.
-/

namespace BlockProgram.Workspace

/-- What a canvas is like when a block has been deleted. -/
structure Removed (w : Workspace) (b : Block) (w' : Workspace) : Prop where
  /-- The blocks are those that were there, less the block and what was plugged into it. -/
  nodes : w.nodes.Perm (b.alone.nodes ++ w'.nodes)
  /-- The block that came next is where the block was. -/
  successor : ∀ c, b.next? = some c →
    ∀ seat, (c.node, seat) ∈ w'.seats ↔ (b.node, seat) ∈ w.seats
  /-- Every other block is where it was. -/
  others : ∀ n ∈ w'.nodes, (∀ c, b.next? = some c → n ≠ c.node) →
    ∀ seat, (n, seat) ∈ w'.seats ↔ (n, seat) ∈ w.seats
  /-- The chains are in their order and at their places; one that the block headed is headed by the
  block that came next. -/
  heads : w'.heads = giveWay b.id (b.next?.map Block.id) w.heads
  /-- The variables are those that were there. -/
  registry : w'.registry = w.registry
  /-- No identity has been made up. -/
  minted : w'.minted = w.minted

/-- With distinct identities, a block that is on the canvas is deleted, and only the chain below it
changes its place. -/
theorem exists_removed {w : Workspace} (hids : (w.nodes.map Node.id).Nodup) {id : BlockId}
    {b : Block} (hb : w.find? id = some b) :
    ∃ w', w.remove id = (.ok b.alone, w') ∧ w.Removed b w' := by
  obtain ⟨left, seat, others, htake, hold, hnew, hheads⟩ := exists_take? hids hb .alone
  rw [show b.remainder? .alone = b.next? from rfl] at hnew hheads
  have hnodes : w.nodes.Perm (b.alone.nodes ++ topNodes left) := perm_take? htake
  obtain ⟨-, hleft, hapart⟩ := List.nodup_append.mp (nodup_take? hids htake)
  obtain rfl : b.id = id := (mem_walk_of_find? hb).2
  -- what goes, the chain below it, and the others
  have hwas : w.seats.Perm (b.next?.toList.flatMap (Block.seats (.slot b.id .next)) ++
      b.alone.seats seat ++ others) := hold.trans ((b.perm_seats_slot .next seat).append_right others)
  refine ⟨{ w with top := left }, by simp only [remove, htake]; rfl, hnodes, ?_, ?_, hheads, rfl, rfl⟩
  · intro c hc s
    have hnext : (c.node, seat) ∈ topSeats left :=
      hnew.mem_iff.mpr (by simp [hc, Block.seats])
    have hblock : (b.node, seat) ∈ w.seats := hwas.mem_iff.mpr (by simp [Block.seats, Block.alone])
    constructor
    · intro hs
      rwa [seat_unique hleft hs hnext]
    · intro hs
      rwa [seat_unique hids hs hblock]
  · intro n hn hne s
    have hstays : (n, s) ∉ b.alone.seats seat := by
      intro hs
      have hgone : n ∈ b.alone.nodes := by
        rw [← Block.map_fst_seats seat]
        exact List.mem_map_of_mem hs
      exact hapart _ (List.mem_map_of_mem hgone) _ (List.mem_map_of_mem hn) rfl
    show (n, s) ∈ topSeats left ↔ _
    rw [hnew.mem_iff, hwas.mem_iff, List.mem_append, List.mem_append, List.mem_append,
      mem_seats_iff_of_ne hne s seat (.slot b.id .next)]
    simp only [hstays, or_false]

/-- **What deleting a block does.** With distinct identities it is refused, and nothing happens,
exactly if the block is not there. Otherwise the block is given back without the chain below it,
and on the canvas that chain is where the block was, while nothing else has changed. -/
theorem remove_answer_and_effect {w : Workspace} (hids : (w.nodes.map Node.id).Nodup) (id : BlockId) :
    (w.remove id = (.error (.unknownBlock id), w) ↔ w.find? id = none) ∧
    ∀ b, w.find? id = some b → ∃ w', w.remove id = (.ok b.alone, w') ∧ w.Removed b w' := by
  refine ⟨⟨fun h => ?_, fun h => ?_⟩, fun b hb => exists_removed hids hb⟩
  · by_contra hsome
    obtain ⟨b, hb⟩ := Option.ne_none_iff_exists'.mp hsome
    obtain ⟨w', hw', -⟩ := exists_removed hids hb
    rw [hw'] at h
    cases h
  · have hnone : take? .alone id w.top = none := by
      by_contra hsome
      obtain ⟨⟨b, left⟩, htake⟩ := Option.ne_none_iff_exists'.mp hsome
      obtain ⟨c, -, -, hc, hcid, -⟩ := perm_seats_take? htake
      exact find?_eq_none_iff.mp h (hcid ▸ mem_ids_of_mem_walk hc)
    rw [remove, hnone]

/-- A block is deleted from the middle of a body, together with the value plugged into it. -/
theorem remove_answer_and_effect_body :
    let print (id : String) : Node := ⟨⟨id⟩, .print, .empty⟩
    let w : Workspace := .ofParts
      [⟨⟨⟨⟨"loop"⟩, .whileLoop, .empty⟩, .cons (.statement "DO") (print "a")
          (.cons .next (print "b") (.cons (.input "VALUE") (print "v") .nil
            (.cons .next (print "c") .nil .nil)) .nil) (.cons .next (print "d") .nil .nil)⟩, none⟩,
        ⟨⟨print "e", .nil⟩, none⟩] .empty
    (w.nodes.map Node.id).Nodup ∧ ∃ b w', w.find? ⟨"b"⟩ = some b ∧
      w.remove ⟨"b"⟩ = (.ok b.alone, w') ∧ w.Removed b w' := by
  intro print w
  have hids : (w.nodes.map Node.id).Nodup := by decide
  obtain ⟨b, hb⟩ : ∃ b, w.find? ⟨"b"⟩ = some b := ⟨_, rfl⟩
  obtain ⟨w', hremove, hremoved⟩ := (remove_answer_and_effect hids ⟨"b"⟩).2 b hb
  exact ⟨hids, b, w', hb, hremove, hremoved⟩

end BlockProgram.Workspace
