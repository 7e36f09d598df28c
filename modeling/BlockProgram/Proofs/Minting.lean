import BlockProgram.Proofs.Document.Items
import BlockProgram.Proofs.Workspace.Capture
import BlockProgram.Proofs.Workspace.Refusal

/-!
# Identities and handles that are made up

A canvas makes up identities of blocks, a registry makes up handles, and reading a document makes up
identities for blocks that have none. Each counts the names that it has tried, and goes on from there
until it meets one that is not in use. The search always ends, since every number makes another name.
Nothing that is done to a canvas, a registry or a document that is being read sets the number back, so
that no name is made up twice, even if it has gone out of use in between.
-/

namespace BlockProgram

/-- The identity that a canvas makes up is found by a search through those of its blocks. -/
theorem Workspace.made_mint (w : Workspace) :
    Fresh.Made "block_" (fun s => (w.find? ⟨s⟩).isSome) ((w.walk.map Block.id).map BlockId.text)
      w.minted w.mint.2.minted := by
  refine Fresh.made_next "block_" (fun s => ?_) (by simp [blockCount]) w.minted
  rw [← BlockId.mk_mem_iff, find?_isSome_iff, ← map_node_walk, List.map_map]
  rfl

/-! ### Numbers are not set back -/

theorem Workspace.minted_le_call (w : Workspace) (c : Call) : w.minted ≤ (w.call c).minted := by
  cases c with
  | add b ordered position =>
    rcases add_cases w b position with ⟨e, h⟩ | ⟨-, h⟩ <;> simp [call, h]
  | move id placement =>
    rcases move_cases w id placement with ⟨e, h⟩ | ⟨top, h⟩ | ⟨target, slot, chain, left, rfl, hastray⟩
    · simp [call, h]
    · simp [call, h]
    · simp [call, hastray.move_eq]
  | remove id =>
    rcases remove_cases w id with ⟨e, h⟩ | ⟨b, top, -, h⟩ <;> simp [call, h]
  | setField id name value =>
    rcases setField_cases w id name value with ⟨e, h⟩ | ⟨b, value', r, -, -, -, h⟩ <;> simp [call, h]
  | createVariable name => exact Nat.le_refl _
  | renameVariable h name =>
    rcases renameVariable_cases w h name with ⟨e, heq⟩ | ⟨holder, r, -, heq | heq⟩ <;>
      simp [call, heq, mapBlocks]
  | deleteVariable h =>
    cases hdeclared : w.registry.declares h with
    | false => simp [call, deleteVariable, hdeclared]
    | true =>
      obtain ⟨rounds, w', hc, -, heq⟩ := exists_deleteVariable hdeclared
      rw [call, heq, hc.eq_top]
  | migrate => exact Nat.le_refl _
  | mint => exact Nat.le_of_lt (Fresh.lt_next _ _ _ _)

theorem Workspace.minted_le_callAll (w : Workspace) (calls : List Call) :
    w.minted ≤ (w.callAll calls).minted := by
  induction calls generalizing w with
  | nil => exact Nat.le_refl _
  | cons c calls ih => exact Nat.le_trans (w.minted_le_call c) (ih (w.call c))

/-- What is done to a registry, in one operation or in the course of one. -/
inductive Registry.Change : Registry → Registry → Prop where
  /-- A handle is made up. -/
  | mint (r : Registry) : Change r r.mint.2
  /-- A variable is put at the end. -/
  | push (r : Registry) (v : Variable) : Change r (r.push v)
  /-- A variable is admitted by name. -/
  | register (r : Registry) (name : String) : Change r (r.register name).2
  /-- A name is bound. -/
  | bind (r : Registry) (name : String) : Change r (r.bind name).2
  /-- A variable is declared. -/
  | declare (r : Registry) (h : Handle) (name : String) : Change r (r.declare h name)
  /-- A variable is renamed. -/
  | rename {r r' : Registry} {h holder : Handle} {name : String}
    (hrename : r.rename h name = some (holder, r')) : Change r r'
  /-- A variable is removed. -/
  | remove (r : Registry) (h : Handle) : Change r (r.remove h)
  /-- A variable has its turn in a migration. -/
  | migrate (m : Migration) (old : Variable) (index : Nat) :
    Change m.registry (m.step old index).registry

theorem Registry.Change.minted_le {r r' : Registry} (h : Change r r') : r.minted ≤ r'.minted := by
  cases h with
  | mint => exact r.minted_le_mint
  | push => exact Nat.le_refl _
  | register => exact (later_register r _).minted
  | bind => exact (later_bind r _).minted
  | declare =>
    rw [Registry.declare]
    split <;> exact Nat.le_refl _
  | rename hrename => exact (later_rename hrename).minted
  | remove => exact Nat.le_refl _
  | migrate m old index => exact (m.later_step old index).minted

namespace Document.Reading

variable {s s' : Reading}

theorem minted_le_head {h : Head} {n : Node} (hn : s.head h = .ok (n, s')) :
    s.minted ≤ s'.minted := by
  rw [head] at hn
  split at hn
  · cases hn
  · split at hn
    · cases hn
      exact Nat.le_of_lt (Fresh.lt_next _ _ _ _)
    · dsimp only at hn
      split at hn
      · cases hn
      · cases hn
        exact Nat.le_refl _

theorem minted_field (s : Reading) (kind : Kind) (name : String) (handle? : Option String)
    (text : String) : (s.field kind name handle? text).2.minted = s.minted := by
  cases handle? with
  | some h =>
    rw [field]
    split <;> rfl
  | none =>
    rw [field]
    split <;> rfl

theorem minted_le_accept {i : Item} (hi : s.accept i = .ok s') : s.minted ≤ s'.minted := by
  cases i with
  | listed handle? name =>
    cases hi
    cases handle? <;> exact Nat.le_refl _
  | block h =>
    rw [accept] at hi
    cases hn : s.head h with
    | error e =>
      rw [hn] at hi
      cases hi
    | ok p =>
      rw [hn] at hi
      cases hi
      exact minted_le_head hn
  | field kind name? handle? text =>
    cases name? with
    | none => cases hi
    | some name =>
      cases hi
      exact Nat.le_of_eq (s.minted_field kind name handle? text).symm
  | slot slot name? =>
    cases slot <;> cases name? <;> cases hi <;> exact Nat.le_refl _

theorem minted_le_foldl (s : Reading) (its : List Item) :
    s.minted ≤ (its.foldl advance s).minted := by
  induction its generalizing s with
  | nil => exact Nat.le_refl _
  | cons i its ih =>
    refine Nat.le_trans ?_ (ih (s.advance i))
    rw [advance]
    split
    · rename_i s' hi
      exact minted_le_accept hi
    · exact Nat.le_refl _

end Document.Reading

/-! ### No name is made up twice -/

/-- Identities that a canvas makes up one after the other, whatever is called in between. -/
theorem Workspace.nodup_mints {ws : List Workspace}
    (h : ws.IsChain fun w w' => ∃ calls, w.mint.2.callAll calls = w') :
    (ws.map fun w => w.mint.1).Nodup := by
  refine Fresh.nodup_names (fun w : Workspace => w.mint.2.minted) (h.imp ?_) "block_"
    (fun _ _ heq => congrArg BlockId.text heq)
  rintro w _ ⟨calls, rfl⟩
  exact Nat.lt_of_le_of_lt (w.mint.2.minted_le_callAll calls) (Fresh.lt_next _ _ _ _)

/-- Handles that a registry makes up one after the other, whatever is done to it in between. -/
theorem Registry.nodup_mints {rs : List Registry}
    (h : rs.IsChain fun r r' => Relation.ReflTransGen Change r.mint.2 r') :
    (rs.map fun r => r.mint.1).Nodup := by
  refine Fresh.nodup_names (fun r : Registry => r.mint.2.minted) (h.imp ?_) "var_"
    (fun _ _ heq => congrArg Handle.text heq)
  intro r r' hchanges
  have hle : r.mint.2.minted ≤ r'.minted := by
    induction hchanges with
    | refl => exact Nat.le_refl _
    | tail _ hchange ih => exact Nat.le_trans ih hchange.minted_le
  exact Nat.lt_of_le_of_lt hle (Fresh.lt_next _ _ _ _)

/-- Identities that are made up one after the other in reading, whatever is met in between. -/
theorem Document.Reading.nodup_mints {ss : List Reading}
    (h : ss.IsChain fun s s' => ∃ its : List Item, its.foldl advance s.mint.2 = s') :
    (ss.map fun s => s.mint.1).Nodup := by
  refine Fresh.nodup_names (fun s : Reading => s.mint.2.minted) (h.imp ?_) "doc_block_"
    (fun _ _ heq => congrArg BlockId.text heq)
  rintro s _ ⟨its, rfl⟩
  exact Nat.lt_of_le_of_lt (s.mint.2.minted_le_foldl its) (Fresh.lt_next _ _ _ _)

/-- **Whatever is made up is found and is new.** On any canvas, in any registry and at any point of
reading the search for a name ends after at most one more round than there are names in use, with a
name that is not in use, and passes over names in use only. Names that are made up one after the other
are distinct, whatever is done in between. -/
theorem mints_end_and_differ :
    (∀ w : Workspace, w.mint.1 = ⟨Fresh.name "block_" w.mint.2.minted⟩ ∧
      Fresh.Made "block_" (fun s => (w.find? ⟨s⟩).isSome) ((w.walk.map Block.id).map BlockId.text)
        w.minted w.mint.2.minted) ∧
    (∀ r : Registry, r.mint.1 = ⟨Fresh.name "var_" r.mint.2.minted⟩ ∧
      Fresh.Made "var_" (fun s => r.declares ⟨s⟩) (r.handles.map Handle.text) r.minted
        r.mint.2.minted) ∧
    (∀ s : Document.Reading, s.mint.1 = ⟨Fresh.name "doc_block_" s.mint.2.minted⟩ ∧
      Fresh.Made "doc_block_" (fun t => s.seen.contains ⟨t⟩) (s.seen.map BlockId.text) s.minted
        s.mint.2.minted) ∧
    (∀ ws : List Workspace, (ws.IsChain fun w w' => ∃ calls, w.mint.2.callAll calls = w') →
      (ws.map fun w => w.mint.1).Nodup) ∧
    (∀ rs : List Registry,
      (rs.IsChain fun r r' => Relation.ReflTransGen Registry.Change r.mint.2 r') →
      (rs.map fun r => r.mint.1).Nodup) ∧
    ∀ ss : List Document.Reading,
      (ss.IsChain fun s s' => ∃ its : List Document.Item,
        its.foldl Document.Reading.advance s.mint.2 = s') →
      (ss.map fun s => s.mint.1).Nodup :=
  ⟨fun w => ⟨rfl, w.made_mint⟩, fun r => ⟨rfl, r.made_mint⟩, fun s => ⟨rfl, s.made_mint⟩,
    fun _ => Workspace.nodup_mints, fun _ => Registry.nodup_mints,
    fun _ => Document.Reading.nodup_mints⟩

/-- A block under the first identity comes and goes, and so does a variable; a document brings the
second identity itself. -/
theorem mints_end_and_differ_after :
    let w := Workspace.empty.mint.2.callAll
      [.add (.leaf ⟨"block_1"⟩ .print .empty) ⟨Fields.sorted_empty, trivial⟩ none,
        .remove ⟨"block_1"⟩]
    let r := (Registry.empty.register "x").2.remove ⟨"var_1"⟩
    let second : Document.Item := .block ⟨"block", some "text", some "doc_block_2"⟩
    let s := Document.Reading.start.mint.2.advance second
    w.mint.1 = ⟨"block_2"⟩ ∧ r.mint.1 = ⟨"var_2"⟩ ∧ s.mint.1 = ⟨"doc_block_3"⟩ ∧
      ([Workspace.empty, w].map fun w => w.mint.1).Nodup ∧
      ([Registry.empty, r].map fun r => r.mint.1).Nodup ∧
      ([Document.Reading.start, s].map fun s => s.mint.1).Nodup ∧
      Fresh.Made "doc_block_" (fun t => s.seen.contains ⟨t⟩) (s.seen.map BlockId.text) s.minted
        s.mint.2.minted := by
  intro w r second s
  obtain ⟨-, -, hreading, hws, hrs, hss⟩ := mints_end_and_differ
  have hchanges : Relation.ReflTransGen Registry.Change Registry.empty.mint.2 r :=
    .tail (.single (.push _ ⟨⟨"var_1"⟩, "x", "x"⟩)) (.remove _ ⟨"var_1"⟩)
  exact ⟨by decide, by decide, by decide, hws _ (.cons_cons ⟨_, rfl⟩ (.singleton _)),
    hrs _ (.cons_cons hchanges (.singleton _)),
    hss _ (.cons_cons ⟨[second], rfl⟩ (.singleton _)), (hreading s).2⟩

end BlockProgram
