import BlockProgram.Proofs.Block.Exchange
import BlockProgram.Workspace.Basic

/-!
# Where blocks are

A block is at the head of a chain on the canvas or in a slot of another block. The blocks of a
tree, each with the seat that it has, say all there is to say about the tree but for the order of
its slots. What is done with a tree is then told by the seats: a slot that is filled or emptied, a
chain put at the end of another, and a part exchanged for another give or take the seats of one
block and what hangs on it, and all other blocks keep theirs.
-/

namespace BlockProgram

/-- Where a block is. -/
inductive Seat where
  /-- At the head of a chain on the canvas. -/
  | canvas (position : Option Position)
  /-- In a slot of another block. -/
  | slot (parent : BlockId) (slot : Slot)
  deriving DecidableEq, Repr

/-- The blocks of a forest that hangs on a block, with their seats. -/
def Children.seats (parent : BlockId) : Children → List (Node × Seat)
  | .nil => []
  | .cons s n below rest => (n, .slot parent s) :: (below.seats n.id ++ rest.seats parent)

/-- The blocks of a tree with their seats, given the seat of the root. -/
def Block.seats (seat : Seat) (b : Block) : List (Node × Seat) :=
  (b.node, seat) :: b.children.seats b.id

section Perm

variable {α : Type} {part : List α}

/-- Some blocks are taken from the middle. -/
theorem perm_append_middle (before after : List α) {middle middle' : List α}
    (h : middle.Perm (part ++ middle')) :
    (before ++ (middle ++ after)).Perm (part ++ (before ++ (middle' ++ after))) := by
  refine ((h.append_right after).append_left before).trans ?_
  rw [List.append_assoc]
  exact List.perm_append_comm_assoc _ _ _

/-- Some blocks are taken from what hangs on a block. -/
theorem perm_append_below {n : α} {below below' rest : List α} (h : below.Perm (part ++ below')) :
    (n :: (below ++ rest)).Perm (part ++ n :: (below' ++ rest)) :=
  perm_append_middle [n] rest h

/-- Some blocks are taken from what comes after a block. -/
theorem perm_append_rest {n : α} {below rest rest' : List α} (h : rest.Perm (part ++ rest')) :
    (n :: (below ++ rest)).Perm (part ++ n :: (below ++ rest')) := by
  simpa using perm_append_middle (n :: below) [] h

end Perm

namespace Children

/-! ### Filling and emptying slots -/

theorem perm_seats_get? {slot : Slot} {b : Block} {cs : Children} (h : cs.get? slot = some b)
    (parent : BlockId) :
    (cs.seats parent).Perm (b.seats (.slot parent slot) ++ (cs.erase slot).seats parent) := by
  induction cs with
  | nil => cases h
  | cons s n below rest _ ih =>
    rw [get?] at h
    rw [erase]
    split at h
    · rename_i hs
      cases h
      rw [if_pos hs, seats, hs]
      exact List.Perm.refl _
    · rename_i hs
      rw [if_neg hs]
      exact perm_append_rest (ih h)

theorem perm_seats_insert {slot : Slot} (b : Block) {cs : Children} (h : cs.Ordered)
    (parent : BlockId) :
    ((cs.insert slot b).seats parent).Perm
      (b.seats (.slot parent slot) ++ (cs.erase slot).seats parent) := by
  induction cs with
  | nil => simp [insert, erase, seats, Block.seats, Block.id]
  | cons s n below rest _ ih =>
    obtain ⟨hs, -, -, hrest⟩ := h
    rw [insert]
    split
    · rename_i hlt
      -- the slot comes before all others, so it was empty
      have hempty : slot ∉ (cons s n below rest).slots := by
        rw [slots_cons, List.mem_cons, not_or]
        exact ⟨Slot.ne_of_before hlt, fun hmem =>
          Slot.ne_of_before (Slot.before_trans hlt (hs slot hmem)) rfl⟩
      rw [erase_of_not_mem hempty]
      exact List.Perm.refl _
    · split
      · rename_i heq
        rw [erase, if_pos heq.symm]
        exact List.Perm.refl _
      · rename_i hne
        rw [erase, if_neg (Ne.symm hne)]
        exact perm_append_rest (ih hrest)

/-- A chain at the end of another hangs on its last block. -/
theorem perm_seats_follow (after : Block) (cs : Children) (parent : BlockId) :
    ((cs.follow after).seats parent).Perm (cs.seats parent ++
      after.seats (.slot ((cs.last?.map Block.id).getD parent) .next)) := by
  induction cs generalizing parent with
  | nil => simp [follow, last?, seats, Block.seats, Block.id]
  | cons s n below rest ihb ihr =>
    rw [follow, last?]
    split
    · have hlast : ((some (below.last?.getD ⟨n, below⟩)).map Block.id).getD parent =
          (below.last?.map Block.id).getD n.id := by
        cases below.last? <;> rfl
      rw [hlast, seats, seats]
      refine (List.perm_append_comm.trans ?_).symm
      refine (perm_append_below ?_).symm
      exact (ihb n.id).trans List.perm_append_comm
    · rw [seats, seats, List.cons_append, List.append_assoc]
      exact ((ihr parent).append_left _).cons _

/-! ### Exchanging a part -/

theorem seats_occupy (parent : BlockId) (slot : Slot) (b : Option Block) (rest : Children) :
    (occupy slot b rest).seats parent =
      b.toList.flatMap (Block.seats (.slot parent slot)) ++ rest.seats parent := by
  cases b with
  | none => rfl
  | some b => simp [occupy, seats, Block.seats, Block.id]

/-- An exchange leaves the seats of all other blocks as they are. -/
theorem Exchanged.perm_seats {parent root : BlockId} {old new cs cs' : Children}
    (h : Exchanged parent old new root cs cs') :
    ∃ others, (cs.seats root).Perm (old.seats parent ++ others) ∧
      (cs'.seats root).Perm (new.seats parent ++ others) := by
  induction h with
  | here => exact ⟨[], by simp, by simp⟩
  | @deeper root s n below below' rest _ ih =>
    obtain ⟨others, hold, hnew⟩ := ih
    exact ⟨(n, .slot root s) :: (others ++ rest.seats root), perm_append_below hold,
      perm_append_below hnew⟩
  | @further root s n below rest rest' _ ih =>
    obtain ⟨others, hold, hnew⟩ := ih
    exact ⟨(n, .slot root s) :: (below.seats n.id ++ others), perm_append_rest hold,
      perm_append_rest hnew⟩

/-- A block that is exchanged for another, or for nothing, leaves its seat to it. -/
theorem Exchanged.perm_seats_occupy {parent root : BlockId} {s : Slot} {n : Node}
    {below rest cs cs' : Children} {b : Option Block}
    (h : Exchanged parent (cons s n below rest) (occupy s b rest) root cs cs') :
    ∃ seat others, (cs.seats root).Perm (Block.seats seat ⟨n, below⟩ ++ others) ∧
      (cs'.seats root).Perm (b.toList.flatMap (Block.seats seat) ++ others) := by
  obtain ⟨others, hold, hnew⟩ := h.perm_seats
  refine ⟨.slot parent s, rest.seats parent ++ others, ?_, ?_⟩
  · rwa [← List.append_assoc]
  · rwa [seats_occupy, List.append_assoc] at hnew

/-! ### Who is in a slot -/

/-- Whoever has a slot for a seat is in that slot of the block. -/
theorem exists_get?_of_mem_seats {root parent : BlockId} {slot : Slot} {m : Node} {cs : Children}
    (h : cs.Ordered) (hm : (m, .slot parent slot) ∈ cs.seats root) :
    (root = parent ∧ ∃ d, cs.get? slot = some d ∧ d.node = m) ∨
    ∃ b ∈ cs.walk, b.id = parent ∧ ∃ d, b.children.get? slot = some d ∧ d.node = m := by
  induction cs generalizing root with
  | nil => cases hm
  | cons s n below rest ihb ihr =>
    obtain ⟨hs, -, hbelow, hrest⟩ := h
    rcases List.mem_cons.mp hm with heq | hm
    · cases heq
      exact .inl ⟨rfl, ⟨m, below⟩, by rw [get?, if_pos rfl], rfl⟩
    · rcases List.mem_append.mp hm with hm | hm
      · refine .inr ?_
        rcases ihb hbelow hm with ⟨hn, hd⟩ | ⟨b, hb, hd⟩
        · exact ⟨⟨n, below⟩, List.mem_cons_self, hn, hd⟩
        · exact ⟨b, List.mem_cons_of_mem _ (List.mem_append_left _ hb), hd⟩
      · rcases ihr hrest hm with ⟨hroot, d, hd, hdm⟩ | ⟨b, hb, hd⟩
        · have hne : s ≠ slot := Slot.ne_of_before (hs slot (mem_slots_of_get? hd))
          exact .inl ⟨hroot, d, by rw [get?, if_neg hne, hd], hdm⟩
        · exact .inr ⟨b, List.mem_cons_of_mem _ (List.mem_append_right _ hb), hd⟩

/-- What hangs on a block of a forest has its seats there. -/
theorem seats_subset_of_mem_walk {root : BlockId} {b : Block} {cs : Children} (hb : b ∈ cs.walk) :
    b.children.seats b.id ⊆ cs.seats root := by
  induction cs generalizing root with
  | nil => cases hb
  | cons s n below rest ihb ihr =>
    intro e he
    refine List.mem_cons_of_mem _ (List.mem_append.mpr ?_)
    rcases List.mem_cons.mp hb with rfl | hb
    · exact .inl he
    · exact (List.mem_append.mp hb).imp (fun hb => ihb hb he) fun hb => ihr hb he

theorem mem_seats_of_get? {root : BlockId} {slot : Slot} {d : Block} {cs : Children}
    (h : cs.get? slot = some d) : (d.node, .slot root slot) ∈ cs.seats root :=
  (perm_seats_get? h root).mem_iff.mpr List.mem_cons_self

end Children

namespace Block

theorem perm_seats_follow (b after : Block) (seat : Seat) :
    ((b.follow after).seats seat).Perm (b.seats seat ++ after.seats (.slot b.last.id .next)) := by
  have hlast : b.last.id = (b.children.last?.map Block.id).getD b.id := by
    rw [last]
    cases b.children.last? <;> rfl
  rw [hlast]
  exact (Children.perm_seats_follow after b.children b.id).cons (b.node, seat)

/-- A block apart from what is in one of its slots, and what is in the slot. -/
theorem perm_seats_slot (b : Block) (slot : Slot) (seat : Seat) :
    (b.seats seat).Perm ((b.children.get? slot).toList.flatMap (seats (.slot b.id slot)) ++
      (b.node, seat) :: (b.children.erase slot).seats b.id) := by
  cases hd : b.children.get? slot with
  | none =>
    rw [Children.erase_of_get?_eq_none hd]
    exact List.Perm.refl _
  | some d =>
    simp only [Option.toList_some, List.flatMap_singleton]
    exact ((Children.perm_seats_get? hd b.id).cons (b.node, seat)).trans List.perm_middle.symm

/-- A block with another put into one of its slots. -/
theorem perm_seats_plug {b : Block} (h : b.Ordered) (slot : Slot) (child : Block) (seat : Seat) :
    ((b.plug slot child).seats seat).Perm (child.seats (.slot b.id slot) ++
      (b.node, seat) :: (b.children.erase slot).seats b.id) :=
  ((Children.perm_seats_insert child h.2 b.id).cons (b.node, seat)).trans List.perm_middle.symm

/-- A block below the root that is exchanged leaves its seat, and the root keeps its own. -/
theorem perm_seats_exchanged {b b' : Block} (hnode : b'.node = b.node) {parent : BlockId} {s : Slot}
    {n : Node} {below rest : Children} {c : Option Block}
    (h : Children.Exchanged parent (.cons s n below rest) (Children.occupy s c rest) b.id
      b.children b'.children) (root : Seat) :
    ∃ seat others, (b.seats root).Perm (seats seat ⟨n, below⟩ ++ others) ∧
      (b'.seats root).Perm (c.toList.flatMap (seats seat) ++ others) := by
  obtain ⟨seat, others, hold, hnew⟩ := h.perm_seats_occupy
  have hroot : b'.id = b.id := congrArg Node.id hnode
  refine ⟨seat, (b.node, root) :: others, (hold.cons _).trans List.perm_middle.symm, ?_⟩
  rw [seats, hnode, hroot]
  exact (hnew.cons _).trans List.perm_middle.symm

/-- A block of a tree whose root is on the canvas has a slot for a seat exactly if it is in that
slot of a block of the tree. -/
theorem mem_seats_slot_iff {b : Block} (h : b.Ordered) {position : Option Position}
    {parent : BlockId} {slot : Slot} {m : Node} :
    (m, .slot parent slot) ∈ b.seats (.canvas position) ↔
      ∃ c ∈ b.walk, c.id = parent ∧ ∃ d, c.children.get? slot = some d ∧ d.node = m := by
  constructor
  · intro hm
    rcases List.mem_cons.mp hm with heq | hm
    · cases heq
    · rcases Children.exists_get?_of_mem_seats h.2 hm with ⟨hroot, hd⟩ | ⟨c, hc, hd⟩
      · exact ⟨b, List.mem_cons_self, hroot, hd⟩
      · exact ⟨c, List.mem_cons_of_mem _ hc, hd⟩
  · rintro ⟨c, hc, rfl, d, hd, rfl⟩
    refine List.mem_cons_of_mem _ ?_
    rcases List.mem_cons.mp hc with rfl | hc
    · exact Children.mem_seats_of_get? hd
    · exact Children.seats_subset_of_mem_walk hc (Children.mem_seats_of_get? hd)

end Block

end BlockProgram
