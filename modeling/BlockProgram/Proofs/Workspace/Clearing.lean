import BlockProgram.Proofs.Workspace.Nodes
import BlockProgram.Proofs.Variable.Migration

/-!
# Clearing a canvas of a variable

A variable is deleted by deleting blocks round by round. Each round looks for the first block that
refers to the variable and deletes a block by the identity of that one. If the identity is there
twice another block may go instead, since heads of chains are deleted first. All the same a block
goes in every round, so that the rounds come to an end, and they end only when no block refers to
the variable any more.
-/

namespace BlockProgram.Workspace

/-! ### One round -/

section Round

variable {h : Handle} {w : Workspace} {id : BlockId}

/-- Who is the first to refer to a variable refers to it. -/
theorem exists_of_firstUser? (hid : firstUser? h w.top = some id) :
    ∃ b ∈ w.walk, b.id = id ∧ b.mentions h := by
  obtain ⟨b, hb, rfl⟩ := Option.map_eq_some_iff.mp hid
  obtain ⟨t, ht, hbt⟩ := List.exists_of_findSome?_eq_some hb
  exact ⟨b, List.mem_flatMap.mpr ⟨t, ht, List.mem_of_find?_eq_some hbt⟩, rfl,
    by simpa using List.find?_some hbt⟩

/-- Who refers to a variable is on the canvas. -/
theorem mem_ids_of_firstUser? (hid : firstUser? h w.top = some id) :
    id ∈ w.nodes.map Node.id := by
  obtain ⟨b, hb, rfl, -⟩ := exists_of_firstUser? hid
  exact mem_ids_of_mem_walk hb

theorem firstUser?_eq_none_iff :
    firstUser? h w.top = none ↔ ∀ b ∈ w.walk, b.mentions h = false := by
  simp only [firstUser?, Option.map_eq_none_iff, List.findSome?_eq_none_iff, List.find?_eq_none,
    walk, List.forall_mem_flatMap, Bool.not_eq_true]

/-- What a deletion does: the block is taken off the chains. -/
theorem exists_take?_of_remove {b : Block} {v : Workspace} (hremove : w.remove id = (.ok b, v)) :
    ∃ left, take? .alone id w.top = some (b, left) ∧ v = { w with top := left } := by
  rw [remove] at hremove
  cases htake : take? .alone id w.top with
  | none => simp [htake] at hremove
  | some p =>
    rw [htake] at hremove
    cases hremove
    exact ⟨p.2, rfl, rfl⟩

/-- A block with an identity that is on the canvas is deleted, and there are fewer blocks then. -/
theorem exists_remove (hid : id ∈ w.nodes.map Node.id) :
    ∃ b v, w.remove id = (.ok b, v) ∧ v.blockCount < w.blockCount := by
  obtain ⟨⟨b, left⟩, htake⟩ := Option.isSome_iff_exists.mp (take?_isSome hid)
  refine ⟨b, { w with top := left }, by rw [remove, htake], ?_⟩
  have hlength := (perm_take? htake).length_eq
  rw [List.length_append, Block.nodes, List.length_cons] at hlength
  rw [← length_nodes, ← length_nodes]
  show (topNodes left).length < (topNodes w.top).length
  omega

end Round

/-! ### All rounds -/

/-- `Clears h rounds w w'`: so many rounds of deleting blocks by the identity of the first one that
refers to a variable lead from the canvas `w` to `w'`, where no block refers to the variable. -/
inductive Clears (h : Handle) : Nat → Workspace → Workspace → Prop where
  /-- No block refers to the variable. -/
  | done {w : Workspace} (hnone : firstUser? h w.top = none) : Clears h 0 w w
  /-- One more round. -/
  | round {rounds : Nat} {w v w' : Workspace} {id : BlockId} {b : Block}
      (hid : firstUser? h w.top = some id) (hremove : w.remove id = (.ok b, v))
      (hrest : Clears h rounds v w') : Clears h (rounds + 1) w w'

/-- The rounds end, after at most as many as blocks are deleted. -/
theorem exists_clears (h : Handle) (w : Workspace) :
    ∃ rounds w', Clears h rounds w w' ∧ rounds + w'.blockCount ≤ w.blockCount := by
  induction hn : w.blockCount using Nat.strongRecOn generalizing w with
  | ind n ih =>
    subst hn
    cases hid : firstUser? h w.top with
    | none => exact ⟨0, w, .done hid, by omega⟩
    | some id =>
      obtain ⟨b, v, hremove, hless⟩ := exists_remove (mem_ids_of_firstUser? hid)
      obtain ⟨rounds, w', hrest, hcount⟩ := ih _ hless v rfl
      exact ⟨rounds + 1, w', .round hid hremove hrest, by omega⟩

namespace Clears

variable {h : Handle} {rounds : Nat} {w w' : Workspace}

/-- Nothing but the chains is touched. -/
theorem eq_top (hc : Clears h rounds w w') : w' = { w with top := w'.top } := by
  induction hc with
  | done => rfl
  | round _ hremove _ ih =>
    obtain ⟨left, -, rfl⟩ := exists_take?_of_remove hremove
    exact ih

/-- In the end no block refers to the variable. -/
theorem firstUser?_eq_none (hc : Clears h rounds w w') : firstUser? h w'.top = none := by
  induction hc with
  | done hnone => exact hnone
  | round _ _ _ ih => exact ih

theorem subperm_nodes (hc : Clears h rounds w w') : w'.nodes.Subperm w.nodes := by
  induction hc with
  | done => exact List.Subperm.refl _
  | round _ hremove _ ih =>
    obtain ⟨left, htake, rfl⟩ := exists_take?_of_remove hremove
    exact ih.trans (subperm_take? htake)

theorem ordered (hc : Clears h rounds w w') (hw : w.Ordered) : w'.Ordered := by
  induction hc with
  | done => exact hw
  | round _ hremove _ ih =>
    obtain ⟨left, htake, rfl⟩ := exists_take?_of_remove hremove
    exact ih (ordered_take? hw htake).2

/-- If as many rounds are granted as are made, deleting users succeeds. -/
theorem removeUsers_eq (hc : Clears h rounds w w') {n : Nat} (hn : rounds ≤ n) :
    removeUsers h n w.top = (.ok (), w'.top) := by
  induction hc generalizing n with
  | done hnone =>
    cases n with
    | zero => rfl
    | succ n => rw [removeUsers, hnone]
  | round hid hremove _ ih =>
    obtain ⟨left, htake, rfl⟩ := exists_take?_of_remove hremove
    cases n with
    | zero => omega
    | succ n =>
      rw [removeUsers, hid]
      simp only [htake]
      exact ih (Nat.le_of_succ_le_succ hn)

end Clears

/-- Deleting a declared variable clears the canvas of it, and then removes it. -/
theorem exists_deleteVariable {w : Workspace} {h : Handle} (hdeclared : w.registry.declares h) :
    ∃ rounds w', Clears h rounds w w' ∧ rounds + w'.blockCount ≤ w.blockCount ∧
      w.deleteVariable h = (.ok (), { w' with registry := w.registry.remove h }) := by
  obtain ⟨rounds, w', hc, hcount⟩ := exists_clears h w
  refine ⟨rounds, w', hc, hcount, ?_⟩
  rw [deleteVariable, if_pos hdeclared, hc.removeUsers_eq (by omega), hc.eq_top]

/-- **Deleting a variable always comes to an end.** Wherever a round finds a block that refers to the
variable, deleting by its identity succeeds and leaves fewer blocks, whatever the identities are. If
the variable is declared, the rounds end with a canvas on which no block refers to it, the deletion
succeeds with that canvas, and the variable is not declared any more. -/
theorem deleteVariable_completes {w : Workspace} (hr : w.registry.Built) {h : Handle}
    (hdeclared : w.registry.declares h) :
    (∀ (v : Workspace) (id : BlockId), firstUser? h v.top = some id →
      ∃ b v', v.remove id = (.ok b, v') ∧ v'.blockCount < v.blockCount) ∧
    ∃ rounds w', Clears h rounds w w' ∧ rounds + w'.blockCount ≤ w.blockCount ∧
      w.deleteVariable h = (.ok (), { w' with registry := w.registry.remove h }) ∧
      (∀ b ∈ w'.walk, b.mentions h = false) ∧ (w.registry.remove h).declares h = false := by
  constructor
  · intro v id hid
    exact exists_remove (mem_ids_of_firstUser? hid)
  · obtain ⟨rounds, w', hc, hcount, heq⟩ := exists_deleteVariable hdeclared
    refine ⟨rounds, w', hc, hcount, heq, firstUser?_eq_none_iff.mp hc.firstUser?_eq_none, ?_⟩
    rw [Bool.eq_false_iff, ne_eq, Registry.declares_iff, Registry.mem_handles]
    rintro ⟨v, hv, hvh⟩
    exact ((Registry.mem_remove_iff hr.nodup_handles).mp hv).2 hvh

/-- Two blocks have one identity, and one of them refers to the variable. The other one is the head of
a chain and is deleted in the first round. -/
theorem deleteVariable_completes_twice :
    let r := Registry.empty.declare ⟨"v"⟩ "x"
    let get : Node := ⟨⟨"a"⟩, .variableGet, ⟨[("VAR", .var ⟨"v"⟩)]⟩⟩
    let print : Node := ⟨⟨"p"⟩, .print, .empty⟩
    let w : Workspace := .ofParts
      [⟨⟨print, .cons (.input "VALUE") get .nil .nil⟩, none⟩, ⟨.leaf ⟨"a"⟩ .text .empty, none⟩] r
    w.registry.Built ∧ w.registry.declares ⟨"v"⟩ ∧
      Clears ⟨"v"⟩ 2 w { w with top := [⟨⟨print, .nil⟩, none⟩] } ∧
      ∃ rounds w', Clears ⟨"v"⟩ rounds w w' ∧ rounds + w'.blockCount ≤ w.blockCount ∧
        w.deleteVariable ⟨"v"⟩ = (.ok (), { w' with registry := w.registry.remove ⟨"v"⟩ }) ∧
        (∀ b ∈ w'.walk, b.mentions ⟨"v"⟩ = false) ∧
        (w.registry.remove ⟨"v"⟩).declares ⟨"v"⟩ = false := by
  intro r get print w
  have hr : w.registry.Built := .declare .empty _ _
  have hdeclared : w.registry.declares ⟨"v"⟩ := by decide
  have hclears : Clears ⟨"v"⟩ 2 w { w with top := [⟨⟨print, .nil⟩, none⟩] } :=
    .round rfl rfl (.round rfl rfl (.done rfl))
  exact ⟨hr, hdeclared, hclears, (deleteVariable_completes hr hdeclared).2⟩

end BlockProgram.Workspace
