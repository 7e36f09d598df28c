import BlockProgram.Proofs.Block.Nodes

/-!
# Pruning

A tree is pruned of a variable in one pass. A block that refers to the variable is dropped with
what is plugged into it, and its slot is left to the pruned chain below it, or to nothing. Every
other block stays, with what hangs on it pruned. Taking a block off that refers to the variable is
one step of this: afterwards the pruned tree is still the same.
-/

namespace BlockProgram

/-- A forest pruned of a variable. -/
def Children.prune (h : Handle) : Children → Children
  | .nil => .nil
  | .cons s n below rest =>
    occupy s (if n.fields.mentions h then (below.prune h).get? .next else some ⟨n, below.prune h⟩)
      (rest.prune h)

/-- What is left of a tree that is pruned of a variable. -/
def Block.prune? (h : Handle) (b : Block) : Option Block :=
  if b.mentions h then (b.children.prune h).get? .next else some ⟨b.node, b.children.prune h⟩

namespace Children

variable {h : Handle}

theorem prune_cons (s : Slot) (n : Node) (below rest : Children) :
    (cons s n below rest).prune h = occupy s (Block.prune? h ⟨n, below⟩) (rest.prune h) := rfl

theorem prune_occupy (s : Slot) (b : Option Block) (rest : Children) :
    (occupy s b rest).prune h = occupy s (b.bind (Block.prune? h)) (rest.prune h) := by
  cases b <;> rfl

theorem get?_occupy_of_ne {s slot : Slot} (hne : s ≠ slot) (b : Option Block) (rest : Children) :
    (occupy s b rest).get? slot = rest.get? slot := by
  cases b with
  | none => rfl
  | some b => rw [occupy, get?, if_neg hne]

theorem get?_occupy_self {s : Slot} {rest : Children} (hrest : rest.get? s = none)
    (b : Option Block) : (occupy s b rest).get? s = b := by
  cases b with
  | none => exact hrest
  | some b => rw [occupy, get?, if_pos rfl]

/-- In a pruned forest every slot holds what is left of the tree that was there. -/
theorem get?_prune {cs : Children} (hcs : cs.Ordered) (slot : Slot) :
    (cs.prune h).get? slot = (cs.get? slot).bind (Block.prune? h) := by
  induction cs with
  | nil => rfl
  | cons s n below rest _ ih =>
    obtain ⟨hs, -, -, hrest⟩ := hcs
    rw [prune_cons, get?]
    by_cases hslot : s = slot
    · subst hslot
      have hempty : rest.get? s = none :=
        get?_eq_none_iff.mpr fun hmem => Slot.ne_of_before (hs s hmem) rfl
      rw [if_pos rfl, get?_occupy_self (by rw [ih hrest, hempty]; rfl)]
      rfl
    · rw [if_neg hslot, get?_occupy_of_ne hslot, ih hrest]

/-- A forest in which nothing refers to the variable is left as it is. -/
theorem prune_eq_self {cs : Children} (hcs : ∀ n ∈ cs.nodes, n.fields.mentions h = false) :
    cs.prune h = cs := by
  induction cs with
  | nil => rfl
  | cons s n below rest ihb ihr =>
    obtain ⟨hn, hcs⟩ := List.forall_mem_cons.mp hcs
    obtain ⟨hbelow, hrest⟩ := List.forall_mem_append.mp hcs
    rw [prune, hn, ihb hbelow, ihr hrest]
    rfl

/-- If a part comes to the same when it is pruned, then so does the forest. -/
theorem Exchanged.prune_eq {parent root : BlockId} {old new cs cs' : Children}
    (hex : Exchanged parent old new root cs cs') (heq : new.prune h = old.prune h) :
    cs'.prune h = cs.prune h := by
  induction hex with
  | here => exact heq
  | deeper _ ih => rw [prune, prune, ih]
  | further _ ih => rw [prune, prune, ih]

end Children

namespace Block

variable {h : Handle} {b : Block}

/-- Of a tree whose root refers to the variable the pruned chain below it is left. -/
theorem prune?_of_mentions (hb : b.Ordered) (hm : b.mentions h) :
    b.prune? h = b.next?.bind (prune? h) := by
  rw [prune?, if_pos hm, Children.get?_prune hb.2, next?]

/-- A tree in which nothing refers to the variable is left as it is. -/
theorem prune?_eq_self (hb : ∀ n ∈ b.nodes, n.fields.mentions h = false) :
    b.prune? h = some b := by
  obtain ⟨hn, hchildren⟩ := List.forall_mem_cons.mp hb
  rw [prune?, mentions, hn, Children.prune_eq_self hchildren]
  rfl

/-- A block that refers to the variable can be taken off before the tree is pruned. -/
theorem prune?_take? (hb : b.Ordered) {id : BlockId} {taken left : Block}
    (ht : b.take? .alone id = some (taken, left)) (hm : taken.mentions h) :
    left.prune? h = b.prune? h := by
  obtain ⟨parent, s, n, below, rest, -, rfl, hnode, hex⟩ := exchanged_of_take? ht
  have hordered : Block.Ordered ⟨n, below⟩ := hb.2.walk (hex.walk_subset List.mem_cons_self)
  have hpart : (Children.occupy s (remainder? .alone ⟨n, below⟩) rest).prune h =
      (Children.cons s n below rest).prune h := by
    rw [Children.prune_occupy, Children.prune_cons, prune?_of_mentions hordered hm]
    rfl
  rw [prune?, prune?, mentions, mentions, hnode, hex.prune_eq hpart]

end Block

end BlockProgram
