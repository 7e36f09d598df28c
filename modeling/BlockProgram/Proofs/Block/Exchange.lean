import BlockProgram.Proofs.Block.Order

/-!
# Exchanging part of a forest

Taking a block off and changing a block come to the same: somewhere in the forest one part is
exchanged for another, and all around it stays. Each of these operations is described once in this
way; what an exchange does to something that is seen of a forest is then one induction, whatever
the operation was.
-/

namespace BlockProgram

/-- What moves up into the place of a block that is taken off: if the block goes alone, the chain
below it. -/
def Block.remainder? (extent : Extent) (b : Block) : Option Block :=
  match extent with
  | .alone => b.next?
  | .withChain => none

theorem Block.Ordered.remainder? {extent : Extent} {b c : Block} (h : b.Ordered)
    (hc : b.remainder? extent = some c) : c.Ordered := by
  cases extent with
  | withChain => cases hc
  | alone => exact h.2.get? hc

namespace Children

/-- A slot before other slots, with a block in it or not. -/
def occupy (slot : Slot) : Option Block → Children → Children
  | some b, rest => cons slot b.node b.children rest
  | none, rest => rest

theorem vacate_eq_occupy (extent : Extent) (slot : Slot) (n : Node) (below rest : Children) :
    vacate extent slot below rest = occupy slot (Block.remainder? extent ⟨n, below⟩) rest := by
  cases extent with
  | withChain => rfl
  | alone =>
    simp only [vacate, Block.remainder?, Block.next?]
    cases below.get? .next <;> rfl

/-- `Exchanged parent old new root cs cs'`: the forest `cs'`, which hangs on the block `root`, is
`cs` with a part `old`, which hangs on the block `parent`, exchanged for `new`. -/
inductive Exchanged (parent : BlockId) (old new : Children) :
    BlockId → Children → Children → Prop where
  /-- The part is the whole forest. -/
  | here : Exchanged parent old new parent old new
  /-- The part is below the first block. -/
  | deeper {root : BlockId} {s : Slot} {n : Node} {below below' rest : Children}
      (h : Exchanged parent old new n.id below below') :
      Exchanged parent old new root (cons s n below rest) (cons s n below' rest)
  /-- The part is after the first block. -/
  | further {root : BlockId} {s : Slot} {n : Node} {below rest rest' : Children}
      (h : Exchanged parent old new root rest rest') :
      Exchanged parent old new root (cons s n below rest) (cons s n below rest')

variable {extent : Extent} {id : BlockId} {b : Block} {cs cs' : Children}

/-- What is exchanged was there. -/
theorem Exchanged.walk_subset {parent root : BlockId} {old new : Children}
    (h : Exchanged parent old new root cs cs') : old.walk ⊆ cs.walk := by
  induction h with
  | here => exact List.Subset.refl _
  | deeper _ ih => exact fun c hc => List.mem_cons_of_mem _ (List.mem_append_left _ (ih hc))
  | further _ ih => exact fun c hc => List.mem_cons_of_mem _ (List.mem_append_right _ (ih hc))

/-! ### Taking off -/

theorem exchanged_of_takeTop? (root : BlockId) (h : cs.takeTop? extent id = some (b, cs')) :
    ∃ s n below rest, n.id = id ∧ b = taken extent n below ∧
      Exchanged root (cons s n below rest) (occupy s (Block.remainder? extent ⟨n, below⟩) rest)
        root cs cs' := by
  induction cs generalizing cs' with
  | nil => cases h
  | cons s n below rest _ ih =>
    rw [takeTop?] at h
    split at h
    · rename_i hid
      cases h
      refine ⟨s, n, below, rest, hid, rfl, ?_⟩
      rw [vacate_eq_occupy extent s n]
      exact .here
    · obtain ⟨⟨b', rest'⟩, hr, heq⟩ := Option.map_eq_some_iff.mp h
      cases heq
      obtain ⟨s', n', below', rest'', hid, hb, hex⟩ := ih hr
      exact ⟨s', n', below', rest'', hid, hb, .further hex⟩

theorem exchanged_of_takeBelow? (root : BlockId) (h : cs.takeBelow? extent id = some (b, cs')) :
    ∃ parent s n below rest, n.id = id ∧ b = taken extent n below ∧
      Exchanged parent (cons s n below rest)
        (occupy s (Block.remainder? extent ⟨n, below⟩) rest) root cs cs' := by
  induction cs generalizing root cs' with
  | nil => cases h
  | cons s n below rest ihb ihr =>
    rw [takeBelow?] at h
    split at h
    · rename_i b' below' hb
      cases h
      rcases Option.or_eq_some_iff.mp hb with hb | ⟨-, hb⟩
      · obtain ⟨s', n', below', rest', hid, hb, hex⟩ := exchanged_of_takeTop? n.id hb
        exact ⟨n.id, s', n', below', rest', hid, hb, .deeper hex⟩
      · obtain ⟨parent, s', n', below', rest', hid, hb, hex⟩ := ihb n.id hb
        exact ⟨parent, s', n', below', rest', hid, hb, .deeper hex⟩
    · obtain ⟨⟨b', rest'⟩, hr, heq⟩ := Option.map_eq_some_iff.mp h
      cases heq
      obtain ⟨parent, s', n', below', rest', hid, hb, hex⟩ := ihr root hr
      exact ⟨parent, s', n', below', rest', hid, hb, .further hex⟩

/-! ### Changing one block -/

theorem update?_eq_none_iff {f : Block → Block} :
    cs.update? id f = none ↔ cs.find? id = none := by
  induction cs with
  | nil => simp [update?, find?]
  | cons s n below rest ihb ihr =>
    rw [update?, find?]
    split
    · simp
    · rw [Option.or_eq_none_iff, ← ihb, ← ihr]
      cases below.update? id f <;> simp

/-- A change is made at the first block with the identity. -/
theorem exchanged_of_update? {f : Block → Block} (root : BlockId)
    (h : cs.update? id f = some cs') :
    ∃ parent s n below rest, n.id = id ∧ cs.find? id = some ⟨n, below⟩ ∧
      Exchanged parent (cons s n below rest) (occupy s (some (f ⟨n, below⟩)) rest) root cs cs' := by
  induction cs generalizing root cs' with
  | nil => cases h
  | cons s n below rest ihb ihr =>
    rw [update?] at h
    split at h
    · rename_i hid
      cases h
      exact ⟨root, s, n, below, rest, hid, by rw [find?, if_pos hid], .here⟩
    · rename_i hne
      split at h
      · rename_i below' hb
        cases h
        obtain ⟨parent, s', n', below', rest', hid, hfind, hex⟩ := ihb n.id hb
        exact ⟨parent, s', n', below', rest', hid, by simp [find?, hne, hfind], .deeper hex⟩
      · rename_i hnone
        obtain ⟨rest', hr, rfl⟩ := Option.map_eq_some_iff.mp h
        obtain ⟨parent, s', n', below', rest', hid, hfind, hex⟩ := ihr root hr
        have hbelow := update?_eq_none_iff.mp hnone
        exact ⟨parent, s', n', below', rest', hid, by simp [find?, hne, hbelow, hfind],
          .further hex⟩

end Children

namespace Block

variable {id : BlockId} {b b' : Block}

theorem exchanged_of_take? {extent : Extent} {taken left : Block}
    (h : b.take? extent id = some (taken, left)) :
    ∃ parent s n below rest, n.id = id ∧ taken = Children.taken extent n below ∧
      left.node = b.node ∧
      Children.Exchanged parent (.cons s n below rest)
        (Children.occupy s (remainder? extent ⟨n, below⟩) rest) b.id b.children left.children := by
  obtain ⟨⟨b', cs⟩, hb, heq⟩ := Option.map_eq_some_iff.mp h
  cases heq
  rcases Option.or_eq_some_iff.mp hb with hb | ⟨-, hb⟩
  · obtain ⟨s, n, below, rest, hid, hb, hex⟩ := Children.exchanged_of_takeTop? b.id hb
    exact ⟨b.id, s, n, below, rest, hid, hb, rfl, hex⟩
  · obtain ⟨parent, s, n, below, rest, hid, hb, hex⟩ := Children.exchanged_of_takeBelow? b.id hb
    exact ⟨parent, s, n, below, rest, hid, hb, rfl, hex⟩

theorem update?_eq_none_iff {f : Block → Block} :
    b.update? id f = none ↔ b.find? id = none := by
  rw [update?, find?]
  split
  · simp
  · rw [Option.map_eq_none_iff, Children.update?_eq_none_iff]

/-- A block that is changed is the root, or it is below the root. -/
theorem update?_cases {f : Block → Block} (h : b.update? id f = some b') :
    (b.id = id ∧ b.find? id = some b ∧ b' = f b) ∨
    ∃ parent s n below rest, n.id = id ∧ b.find? id = some ⟨n, below⟩ ∧ b'.node = b.node ∧
      Children.Exchanged parent (.cons s n below rest)
        (Children.occupy s (some (f ⟨n, below⟩)) rest) b.id b.children b'.children := by
  rw [update?] at h
  rw [find?]
  split at h
  · rename_i hid
    cases h
    exact .inl ⟨hid, if_pos hid, rfl⟩
  · rename_i hne
    obtain ⟨cs, hcs, rfl⟩ := Option.map_eq_some_iff.mp h
    obtain ⟨parent, s, n, below, rest, hid, hfind, hex⟩ := Children.exchanged_of_update? b.id hcs
    exact .inr ⟨parent, s, n, below, rest, hid, by rw [if_neg hne, hfind], rfl, hex⟩

end Block

end BlockProgram
