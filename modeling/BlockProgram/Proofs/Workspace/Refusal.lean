import BlockProgram.Proofs.Workspace.References
import BlockProgram.Proofs.Workspace.Moving

/-!
# What is refused changes nothing

A change that is refused leaves the canvas as it was, chains, places, variables and counters,
whatever the identities on it are. A move is the one exception. It is tried with the first block
that has the identity, and another one with the same identity may be lifted out, because heads of
chains are lifted first; with that one the target may go as well. Then the move is refused, and the
chain that has been lifted goes to the end of the canvas, which is not where it was unless it was a
chain of its own and the last one.
-/

namespace BlockProgram.Workspace

/-- If a change of a canvas is refused the canvas is as it was. -/
def Atomic (w : Workspace) {α : Type} (result : Edited α) : Prop :=
  ∀ e, result.1 = .error e → result.2 = w

theorem atomic_error {w : Workspace} {α : Type} {result : Edited α} {e : EditError}
    (h : result = (.error e, w)) : w.Atomic result := fun _ _ => congrArg Prod.snd h

theorem atomic_ok {w w' : Workspace} {α : Type} {result : Edited α} {a : α}
    (h : result = (.ok a, w')) : w.Atomic result := by
  rintro e he
  rw [h] at he
  cases he

/-! ### All but moving -/

section Others

variable (w : Workspace)

theorem atomic_add (b : Block) (position : Option Position) : w.Atomic (w.add b position) := by
  rcases add_cases w b position with ⟨e, h⟩ | ⟨-, h⟩
  · exact atomic_error h
  · exact atomic_ok h

theorem atomic_remove (id : BlockId) : w.Atomic (w.remove id) := by
  rcases remove_cases w id with ⟨e, h⟩ | ⟨b, top, -, h⟩
  · exact atomic_error h
  · exact atomic_ok h

theorem atomic_setField (id : BlockId) (name : String) (value : Field) :
    w.Atomic (w.setField id name value) := by
  rcases setField_cases w id name value with ⟨e, h⟩ | ⟨b, value', r, -, -, -, h⟩
  · exact atomic_error h
  · exact atomic_ok h

theorem atomic_renameVariable (h : Handle) (name : String) :
    w.Atomic (w.renameVariable h name) := by
  rcases renameVariable_cases w h name with ⟨e, heq⟩ | ⟨holder, r, -, heq | heq⟩
  · exact atomic_error heq
  · exact atomic_ok heq
  · exact atomic_ok heq

/-- All users of a variable that is declared can be deleted, so that this is not refused halfway. -/
theorem atomic_deleteVariable (h : Handle) : w.Atomic (w.deleteVariable h) := by
  cases hdeclared : w.registry.declares h with
  | false => exact atomic_error (by rw [deleteVariable, hdeclared]; rfl)
  | true =>
    obtain ⟨rounds, w', -, -, heq⟩ := exists_deleteVariable hdeclared
    exact atomic_ok heq

end Others

/-! ### Moving -/

section Move

variable {w : Workspace} {id target : BlockId} {chain : Block} {left : List TopBlock}

theorem attach_of_mem (h : target ∈ w.nodes.map Node.id) (chain : Block)
    (previous : Option Position) (slot : Slot) :
    ∃ top, w.attach chain previous target slot = (.ok (), { w with top := top }) := by
  obtain ⟨b, hb⟩ := Option.isSome_iff_exists.mp (find?_isSome_iff.mpr h)
  obtain ⟨top, htop⟩ := exists_updateTop? hb (plugChain slot chain)
  exact ⟨top ++ (bumped? slot b).toList.map (⟨·, none⟩), by simp only [attach, hb, htop]⟩

theorem attach_of_not_mem (h : target ∉ w.nodes.map Node.id) (chain : Block)
    (previous : Option Position) (slot : Slot) :
    w.attach chain previous target slot =
      (.error (.unknownBlock target), { w with top := w.top ++ [⟨chain, previous⟩] }) := by
  simp only [attach, find?_eq_none_iff.mpr h]

/-- A move of a block into a slot of a target that goes astray: nothing is to be said against it, but
the chain that is lifted out takes the target along. -/
structure Astray (w : Workspace) (id target : BlockId) (chain : Block) (left : List TopBlock) :
    Prop where
  /-- The block that is found is not the target, which does not hang on it either. -/
  apart : ∃ moving, w.find? id = some moving ∧ target ∉ moving.ids
  /-- The target is there. -/
  there : target ∈ w.nodes.map Node.id
  /-- The chain that is lifted out, and what is left. -/
  lifted : take? .withChain id w.top = some (chain, left)
  /-- The target is there no more. -/
  gone : target ∉ (topNodes left).map Node.id

/-- A move that goes astray is refused when the chain has been lifted out. -/
theorem Astray.move_eq (h : w.Astray id target chain left) (slot : Slot) :
    w.move id (.slot target slot) = (.error (.unknownBlock target),
      { w with top := left ++ [⟨chain, w.positionOf id⟩] }) := by
  obtain ⟨moving, hfind, hout⟩ := h.apart
  have hfault : moveFault? w moving (.slot target slot) = none :=
    moveFault?_eq_none_iff.mpr fun t ht => Option.some.inj ht ▸ ⟨hout, h.there⟩
  simp only [move, hfind, hfault, h.lifted]
  exact attach_of_not_mem (w := { w with top := left }) h.gone _ _ _

/-- A move is refused at once, or made, or goes astray. -/
theorem move_cases (w : Workspace) (id : BlockId) (placement : Placement) :
    (∃ e, w.move id placement = (.error e, w)) ∨
      (∃ top, w.move id placement = (.ok (), { w with top := top })) ∨
    ∃ target slot chain left, placement = .slot target slot ∧ w.Astray id target chain left := by
  cases hfind : w.find? id with
  | none => exact .inl ⟨.unknownBlock id, by simp only [move, hfind]⟩
  | some moving =>
    cases hfault : moveFault? w moving placement with
    | some fault => exact .inl ⟨fault, move_of_fault hfind hfault⟩
    | none =>
      have hthere : (take? .withChain id w.top).isSome :=
        take?_isSome (find?_isSome_iff.mp (by rw [hfind]; rfl))
      obtain ⟨⟨chain, left⟩, htake⟩ := Option.isSome_iff_exists.mp hthere
      cases placement with
      | canvas position =>
        exact .inr (.inl ⟨left ++ [⟨chain, some position⟩],
          by simp only [move, hfind, hfault, htake]⟩)
      | slot target slot =>
        obtain ⟨hout, htarget⟩ := moveFault?_eq_none_iff.mp hfault target rfl
        by_cases hleft : target ∈ (topNodes left).map Node.id
        · obtain ⟨top, htop⟩ := attach_of_mem (w := { w with top := left }) hleft chain
            (w.positionOf id) slot
          exact .inr (.inl ⟨top, by simp only [move, hfind, hfault, htake, htop]⟩)
        · exact .inr (.inr ⟨target, slot, chain, left, rfl,
            ⟨moving, hfind, hout⟩, htarget, htake, hleft⟩)

/-- The target goes with the chain that is lifted out. -/
theorem Astray.mem_ids (h : w.Astray id target chain left) : target ∈ chain.ids := by
  have hthere := ((perm_take? h.lifted).map Node.id).mem_iff.mp h.there
  rw [List.map_append, List.mem_append, ← Block.ids_eq] at hthere
  exact hthere.resolve_right h.gone

/-- A chain that was the last one and is lifted out is put back where it was. -/
theorem Astray.eq_of_top_eq (h : w.Astray id target chain left) {t : TopBlock}
    (htop : w.top = left ++ [t]) : t = ⟨chain, w.positionOf id⟩ := by
  rcases take?_cases h.lifted with ⟨before, u, after, hold, hbefore, hid, rfl, rfl⟩ |
    ⟨-, before, u, after, rest, hold, -, rfl⟩
  · have hposition : w.positionOf id = u.position := by
      rw [positionOf, hold, List.find?_append, List.find?_eq_none.mpr (by simpa using hbefore)]
      simp [hid]
    have hends : u :: after = after ++ [t] := by
      rw [hold] at htop
      simpa [Block.remainder?] using htop
    cases after with
    | nil =>
      rw [hposition, List.head_eq_of_cons_eq hends]
      rfl
    | cons v after =>
      -- the chain that is lifted out would be there once more, and the target with it
      obtain rfl := List.head_eq_of_cons_eq hends
      refine absurd h.mem_ids fun hin => h.gone ?_
      rw [Block.ids_eq] at hin
      simp only [topNodes_append, topNodes_cons, List.map_append, List.mem_append]
      exact .inr (.inl hin)
  · have hlength := congrArg List.length (hold.symm.trans htop)
    simp at hlength

/-- A move that goes astray leaves the canvas as it was if and only if the chain that is lifted out
was the last one. -/
theorem Astray.atomic_iff (h : w.Astray id target chain left) (slot : Slot) :
    w.Atomic (w.move id (.slot target slot)) ↔ ∃ t, w.top = left ++ [t] := by
  constructor
  · intro hatomic
    have hsame := hatomic (.unknownBlock target) (by rw [h.move_eq])
    rw [h.move_eq] at hsame
    exact ⟨_, (congrArg Workspace.top hsame).symm⟩
  · rintro ⟨t, htop⟩
    refine atomic_error (e := .unknownBlock target) ?_
    rw [h.move_eq, ← h.eq_of_top_eq htop, ← htop]

/-- A move goes astray only if two blocks have the identity: the one that is found and the one that
is lifted out. -/
theorem Astray.two_le_count (h : w.Astray id target chain left) :
    2 ≤ (w.nodes.map Node.id).count id := by
  obtain ⟨moving, hfind, hout⟩ := h.apart
  obtain ⟨hmoving, hid⟩ := mem_walk_of_find? hfind
  obtain ⟨hchain, hchainid⟩ := mem_walk_of_take? h.lifted
  have hne : moving ≠ chain := by
    rintro rfl
    exact hout h.mem_ids
  have hpair : [moving, chain] ⊆ w.walk :=
    List.cons_subset.mpr ⟨hmoving, List.cons_subset.mpr ⟨hchain, List.nil_subset _⟩⟩
  obtain ⟨pair, hperm, hsub⟩ := List.subperm_of_subset (by simpa using hne) hpair
  rw [← map_node_walk, List.map_map]
  calc 2 = ([moving, chain].map Block.id).count id := by simp [hid, hchainid]
    _ = (pair.map Block.id).count id := (hperm.map Block.id).symm.count_eq id
    _ ≤ (w.walk.map Block.id).count id := (hsub.map Block.id).count_le id

/-- A move into a slot goes astray, and the chain that is lifted out was not the last one. -/
def Strays (w : Workspace) (id : BlockId) : Placement → Prop
  | .canvas _ => False
  | .slot target _ => ∃ chain left, w.Astray id target chain left ∧ ∀ t, w.top ≠ left ++ [t]

theorem atomic_move_iff (w : Workspace) (id : BlockId) (placement : Placement) :
    w.Atomic (w.move id placement) ↔ ¬ w.Strays id placement := by
  cases placement with
  | canvas position =>
    refine iff_of_true ?_ not_false
    rcases move_cases w id (.canvas position) with ⟨e, h⟩ | ⟨top, h⟩ | ⟨_, _, _, _, heq, -⟩
    · exact atomic_error h
    · exact atomic_ok h
    · cases heq
  | slot target slot =>
    constructor
    · rintro hatomic ⟨chain, left, h, hne⟩
      obtain ⟨t, htop⟩ := (h.atomic_iff slot).mp hatomic
      exact hne t htop
    · intro hnot
      rcases move_cases w id (.slot target slot) with ⟨e, h⟩ | ⟨top, h⟩ |
        ⟨_, _, chain, left, heq, h⟩
      · exact atomic_error h
      · exact atomic_ok h
      · cases heq
        refine (h.atomic_iff slot).mpr ?_
        by_contra hne
        exact hnot ⟨chain, left, h, not_exists.mp hne⟩

end Move

/-- **What is refused changes nothing, unless a move goes astray.** Whatever the identities on a
canvas are, it is as it was when adding, removing or setting a field, or renaming or deleting a
variable, is refused. When a move is refused it is as it was unless the move has gone astray with a
chain that was not the last one. A move goes astray only if its block is there twice; then the chain
that was lifted out is at the end of the canvas. -/
theorem atomic_unless_astray (w : Workspace) :
    (∀ b position, w.Atomic (w.add b position)) ∧
    (∀ id, w.Atomic (w.remove id)) ∧
    (∀ id name value, w.Atomic (w.setField id name value)) ∧
    (∀ h name, w.Atomic (w.renameVariable h name)) ∧
    (∀ h, w.Atomic (w.deleteVariable h)) ∧
    (∀ id placement, w.Atomic (w.move id placement) ↔ ¬ w.Strays id placement) ∧
    ∀ id target chain left, w.Astray id target chain left →
      2 ≤ (w.nodes.map Node.id).count id ∧
      ∀ slot, w.move id (.slot target slot) = (.error (.unknownBlock target),
        { w with top := left ++ [⟨chain, w.positionOf id⟩] }) :=
  ⟨w.atomic_add, w.atomic_remove, w.atomic_setField, w.atomic_renameVariable,
    w.atomic_deleteVariable, w.atomic_move_iff,
    fun _ _ _ _ h => ⟨h.two_le_count, h.move_eq⟩⟩

/-- Of two blocks with one identity the first is found, and the second is lifted out with the target
below it. It was the last chain, and is put back. -/
theorem atomic_unless_astray_last :
    let node (id : String) : Node := ⟨⟨id⟩, .text, ⟨[]⟩⟩
    let outer : TopBlock := ⟨⟨node "p", .cons (.input "VALUE") (node "a") .nil .nil⟩, none⟩
    let pair : TopBlock := ⟨⟨node "a", .cons .next (node "t") .nil .nil⟩, none⟩
    let w : Workspace := .ofParts [outer, pair] .empty
    w.Astray ⟨"a"⟩ ⟨"t"⟩ pair.block [outer] ∧
      w.move ⟨"a"⟩ (.slot ⟨"t"⟩ .next) = (.error (.unknownBlock ⟨"t"⟩), w) := by
  intro node outer pair w
  have hastray : w.Astray ⟨"a"⟩ ⟨"t"⟩ pair.block [outer] :=
    ⟨⟨⟨node "a", .nil⟩, rfl, by decide⟩, by decide, rfl, by decide⟩
  obtain ⟨-, -, -, -, -, -, h⟩ := atomic_unless_astray w
  exact ⟨hastray, (h _ _ _ _ hastray).2 .next⟩

/-- With another chain after it, it is put behind that one. -/
theorem not_atomic_move :
    let node (id : String) : Node := ⟨⟨id⟩, .text, ⟨[]⟩⟩
    let outer : TopBlock := ⟨⟨node "p", .cons (.input "VALUE") (node "a") .nil .nil⟩, none⟩
    let pair : TopBlock := ⟨⟨node "a", .cons .next (node "t") .nil .nil⟩, none⟩
    let other : TopBlock := ⟨⟨node "b", .nil⟩, none⟩
    let w : Workspace := .ofParts [outer, pair, other] .empty
    w.move ⟨"a"⟩ (.slot ⟨"t"⟩ .next) =
        (.error (.unknownBlock ⟨"t"⟩), .ofParts [outer, other, pair] .empty) ∧
      ¬ w.Atomic (w.move ⟨"a"⟩ (.slot ⟨"t"⟩ .next)) := by
  intro node outer pair other w
  refine ⟨rfl, fun hatomic => ?_⟩
  have hsame : (w.move ⟨"a"⟩ (.slot ⟨"t"⟩ .next)).2 = w := hatomic (.unknownBlock ⟨"t"⟩) rfl
  exact absurd hsame (by decide)

end BlockProgram.Workspace
