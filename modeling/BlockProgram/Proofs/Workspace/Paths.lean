import BlockProgram.Proofs.Block.Paths
import BlockProgram.Proofs.Workspace.Edit

/-!
# Paths over a canvas

A block on a canvas is reached by the number of its chain and a path of slots. A setting that is
given a value is that of the first block with the identity, chain by chain, and nothing else changes.
-/

namespace BlockProgram

namespace Workspace

/-- The blocks on a canvas in visiting order, each with the number of its chain and its path. -/
def sites (w : Workspace) : List ((Nat × List Slot) × Block) :=
  w.top.zipIdx.flatMap fun p => p.1.block.sites.map fun e => ((p.2, e.1), e.2)

/-- The block to which a path leads in a chain, apart from what hangs on it. -/
def nodeAt? (w : Workspace) (site : Nat × List Slot) : Option Node :=
  w.top[site.1]?.bind fun t => t.block.nodeAt? site.2

theorem map_snd_sites (w : Workspace) : w.sites.map Prod.snd = w.walk := by
  have hfst : w.walk = (w.top.zipIdx.map Prod.fst).flatMap fun t => t.block.walk := by
    rw [List.zipIdx_map_fst, walk]
  rw [hfst, List.flatMap_map, sites, List.map_flatMap]
  refine List.flatMap_congr fun p _ => ?_
  rw [← Block.map_snd_sites, List.map_map]
  rfl

theorem find?_eq_walk (w : Workspace) (id : BlockId) :
    w.find? id = w.walk.find? (·.id = id) := by
  rw [find?, walk, List.find?_flatMap]
  simp only [Block.find?_eq_walk]

/-- The first block with an identity is in the first chain that has one. -/
theorem find?_sites_of_split {w : Workspace} {before after : List TopBlock} {t : TopBlock}
    (hsplit : w.top = before ++ t :: after) {id : BlockId} {path : List Slot} {c : Block}
    (hbefore : ∀ u ∈ before, u.block.find? id = none)
    (hc : t.block.sites.find? (·.2.id = id) = some (path, c)) :
    w.sites.find? (·.2.id = id) = some ((before.length, path), c) := by
  have hnone : ∀ p ∈ before.zipIdx,
      (p.1.block.sites.map fun e => ((p.2, e.1), e.2)).find? (·.2.id = id) = none := by
    intro p hp
    have hfree := hbefore p.1 (List.fst_mem_of_mem_zipIdx hp)
    rw [Block.find?_eq_sites, Option.map_eq_none_iff] at hfree
    rw [List.find?_map, Option.map_eq_none_iff]
    exact hfree
  rw [sites, hsplit, List.zipIdx_append, List.flatMap_append, List.find?_append, List.find?_flatMap,
    List.findSome?_eq_none_iff.mpr hnone, Option.none_or, List.zipIdx_cons, List.flatMap_cons,
    List.find?_append, List.find?_map]
  have hhead : t.block.sites.find?
      ((fun x => decide (x.2.id = id)) ∘ fun e => ((before.length, e.1), e.2)) = some (path, c) := hc
  rw [Nat.zero_add, hhead, Option.map_some, Option.some_or]

/-- What is written into the first chain that has the block is written into the canvas. -/
theorem exists_written {w : Workspace} (hw : w.Ordered) {id : BlockId} {c : Block}
    (hc : w.find? id = some c) (name : String) (value : Field) :
    ∃ site top, w.sites.find? (·.2.id = id) = some (site, c) ∧
      updateTop? id (Block.setField · name value) w.top = some top ∧
      (∀ t ∈ top, t.block.Ordered) ∧ top.map TopBlock.position = w.top.map TopBlock.position ∧
      Written (w.nodeAt? ·) ({ w with top := top }.nodeAt? ·) site name value := by
  obtain ⟨top, htop⟩ := exists_updateTop? hc (Block.setField · name value)
  obtain ⟨before, t, after, b, hsplit, hbefore, hb, rfl⟩ := updateTop?_eq_some htop
  have hct : t.block.find? id = some c := by
    rw [find?, hsplit, List.findSome?_append, List.findSome?_eq_none_iff.mpr hbefore,
      Option.none_or, List.findSome?_cons] at hc
    cases ht : t.block.find? id with
    | none =>
      rw [Block.update?_eq_none_iff.mpr ht] at hb
      cases hb
    | some d => rwa [ht] at hc
  have ht : t ∈ w.top := by simp [hsplit]
  obtain ⟨path, b', hfind, hb', -, hwritten⟩ := Block.exists_written (hw t ht) hct name value
  obtain rfl := Option.some.inj (hb.symm.trans hb')
  refine ⟨(before.length, path), _, find?_sites_of_split hsplit hbefore hfind, htop,
    ordered_updateTop? (fun _ hc => hc.setField name value) hw htop, by simp [hsplit], ?_, ?_⟩
  · simpa [nodeAt?, hsplit] using hwritten.here
  · rintro ⟨j, q⟩ hne
    by_cases hj : j = before.length
    · subst hj
      have hq : q ≠ path := fun h => hne (by rw [h])
      simpa [nodeAt?, hsplit] using hwritten.elsewhere q hq
    · have hset : before ++ { t with block := b } :: after =
          w.top.set before.length { t with block := b } := by simp [hsplit]
      simp only [nodeAt?, hset, List.getElem?_set_ne (Ne.symm hj)]

/-- **All ways of going through a tree agree.** Each block is visited once, in one order, and a visit
with changes takes the same way; looking up finds the first block in that order. A setting that is
given a value is changed in the first block with the identity, in a tree as on a canvas, and nothing
else is changed there. -/
theorem traversals_agree {b : Block} (hb : b.Ordered) {w : Workspace} (hw : w.Ordered)
    (id : BlockId) (name : String) (value : Field) :
    b.Visited ∧ b.Found id ∧
    (b.find? id = none → b.update? id (Block.setField · name value) = none) ∧
    (∀ c, b.find? id = some c → ∃ path b', b.sites.find? (·.2.id = id) = some (path, c) ∧
      b.update? id (Block.setField · name value) = some b' ∧ b'.Ordered ∧
      Written (b.nodeAt? ·) (b'.nodeAt? ·) path name value) ∧
    w.sites.map Prod.snd = w.walk ∧ w.find? id = w.walk.find? (·.id = id) ∧
    (w.find? id = none → w.setField id name value = (.error (.unknownBlock id), w)) ∧
    ∀ c, w.find? id = some c → ∃ site w', w.sites.find? (·.2.id = id) = some (site, c) ∧
      w.setField id name value = (.ok (), w') ∧ w'.Ordered ∧
      Written (w.nodeAt? ·) (w'.nodeAt? ·) site name (taking w.registry c.kind name value).1 ∧
      w'.top.map TopBlock.position = w.top.map TopBlock.position ∧
      w'.registry = (taking w.registry c.kind name value).2 ∧ w'.minted = w.minted := by
  refine ⟨Block.visited hb, b.found id, Block.update?_eq_none_iff.mpr,
    fun c hc => Block.exists_written hb hc name value, w.map_snd_sites, w.find?_eq_walk id, ?_, ?_⟩
  · intro hnone
    rw [setField, hnone]
  · intro c hc
    obtain ⟨site, top, hsite, htop, hordered, hpositions, hwritten⟩ :=
      exists_written hw hc name (taking w.registry c.kind name value).1
    refine ⟨site, { w with top := top, registry := (taking w.registry c.kind name value).2 }, hsite,
      ?_, hordered, hwritten, hpositions, rfl, rfl⟩
    rw [setField_eq hc, htop, Option.getD_some]

/-- Two blocks of one tree have the identity. The one that is plugged in comes first, and it alone
takes on the variable. -/
theorem traversals_agree_repeated :
    let get (id : String) : Node := ⟨⟨id⟩, .variableGet, .empty⟩
    let b : Block := ⟨⟨⟨"p"⟩, .print, .empty⟩,
      .cons (.input "VALUE") (get "a") .nil (.cons .next (get "a") .nil .nil)⟩
    let w : Workspace := .ofParts [⟨.leaf ⟨"q"⟩ .print .empty, none⟩, ⟨b, none⟩] .empty
    b.Ordered ∧ w.Ordered ∧ b.find? ⟨"a"⟩ = some ⟨get "a", .nil⟩ ∧
      w.find? ⟨"a"⟩ = some ⟨get "a", .nil⟩ ∧
      b.Visited ∧ b.Found ⟨"a"⟩ ∧
      ∃ site w', w.sites.find? (·.2.id = ⟨"a"⟩) = some (site, ⟨get "a", .nil⟩) ∧
        w.setField ⟨"a"⟩ "VAR" (.text "x") = (.ok (), w') ∧
        Written (w.nodeAt? ·) (w'.nodeAt? ·) site "VAR"
          (taking w.registry .variableGet "VAR" (.text "x")).1 := by
  intro get b w
  have hb : b.Ordered := by
    simp [b, get, Block.Ordered, Children.Ordered, Slot.before, Fields.Sorted, Fields.empty]
  have hw : w.Ordered := by
    intro t ht
    rcases List.mem_pair.mp ht with rfl | rfl
    · exact ⟨Fields.sorted_empty, Children.ordered_nil⟩
    · exact hb
  have hfind : w.find? ⟨"a"⟩ = some ⟨get "a", .nil⟩ := by decide
  obtain ⟨hvisited, hfound, -, -, -, -, -, hwrite⟩ :=
    traversals_agree hb hw ⟨"a"⟩ "VAR" (.text "x")
  obtain ⟨site, w', hsite, hset, -, hwritten, -⟩ := hwrite _ hfind
  exact ⟨hb, hw, by decide, hfind, hvisited, hfound, site, w', hsite, hset, hwritten⟩

end Workspace

end BlockProgram
