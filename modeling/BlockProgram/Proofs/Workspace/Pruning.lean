import BlockProgram.Proofs.Block.Pruning
import BlockProgram.Proofs.Workspace.References
import BlockProgram.Proofs.Workspace.Seats

/-!
# Deleting a variable

A variable is deleted by deleting blocks that refer to it, one after the other, the first in
visiting order each time, until there are none. However these blocks are arranged, one below the
other or one plugged into the other, what is left is the canvas pruned in one pass.
-/

namespace BlockProgram

/-- Chains pruned of a variable. A chain of which something is left keeps its place, the others
are gone. -/
def pruneTop (h : Handle) (top : List TopBlock) : List TopBlock :=
  top.filterMap fun t => (t.block.prune? h).map (⟨·, t.position⟩)

/-- With distinct handles, removing leaves out the variable with the handle and keeps the order of
the others. -/
theorem Registry.vars_remove {r : Registry} (hr : r.handles.Nodup) (h : Handle) :
    (r.remove h).vars = r.vars.filter (·.handle ≠ h) := by
  have hvars : ∀ vs : List Variable, (vs.map Variable.handle).Nodup →
      vs.eraseP (·.handle = h) = vs.filter (·.handle ≠ h) := by
    intro vs hvs
    induction vs with
    | nil => rfl
    | cons v vs ih =>
      obtain ⟨hv, hvs⟩ := List.nodup_cons.mp hvs
      by_cases heq : v.handle = h
      · -- nobody else has the handle
        have hothers : ∀ u ∈ vs, u.handle ≠ h :=
          fun u hu hu' => hv (heq ▸ hu' ▸ List.mem_map_of_mem hu)
        rw [List.eraseP_cons_of_pos (by simpa using heq), List.filter_cons_of_neg (by simpa using heq),
          List.filter_eq_self.mpr (by simpa using hothers)]
      · rw [List.eraseP_cons_of_neg (by simpa using heq), List.filter_cons_of_pos (by simpa using heq),
          ih hvs]
  exact hvars r.vars hr

namespace Workspace

/-! ### One round -/

/-- Chains in which nothing refers to the variable are left as they are. -/
theorem pruneTop_eq_self {w : Workspace} {h : Handle} (hnone : firstUser? h w.top = none) :
    pruneTop h w.top = w.top := by
  have hkeep : ∀ t ∈ w.top, (t.block.prune? h).map (⟨·, t.position⟩) = some t := by
    intro t ht
    have hfree : ∀ n ∈ t.block.nodes, n.fields.mentions h = false := by
      intro n hn
      have hn := not_mem_handles hnone n (List.mem_flatMap.mpr ⟨t, ht, hn⟩)
      exact Bool.eq_false_iff.mpr fun hm => hn (Block.mentions_iff (b := ⟨n, .nil⟩).mp hm)
    rw [Block.prune?_eq_self hfree]
    rfl
  rw [pruneTop, List.filterMap_congr hkeep, List.filterMap_some]

/-- A block that refers to the variable can be taken off before the chains are pruned. -/
theorem pruneTop_take? {h : Handle} {id : BlockId} {b : Block} {top left : List TopBlock}
    (htop : ∀ t ∈ top, t.block.Ordered) (ht : take? .alone id top = some (b, left))
    (hm : b.mentions h) : pruneTop h left = pruneTop h top := by
  rcases take?_cases ht with ⟨before, t, after, rfl, -, -, rfl, rfl⟩ |
    ⟨-, before, t, after, rest, rfl, htake, rfl⟩
  · have hordered : t.block.Ordered := htop t (by simp)
    have hhead : pruneTop h (t.block.next?.toList.map (⟨·, t.position⟩)) = pruneTop h [t] := by
      simp only [pruneTop, List.filterMap_cons, List.filterMap_nil,
        Block.prune?_of_mentions hordered hm]
      cases t.block.next? with
      | none => rfl
      | some c => rfl
    calc pruneTop h (before ++ t.block.next?.toList.map (⟨·, t.position⟩) ++ after)
        = pruneTop h before ++ pruneTop h (t.block.next?.toList.map (⟨·, t.position⟩)) ++
            pruneTop h after := by simp only [pruneTop, List.filterMap_append]
      _ = pruneTop h before ++ pruneTop h [t] ++ pruneTop h after := by rw [hhead]
      _ = pruneTop h (before ++ t :: after) := by
          simp only [pruneTop, ← List.filterMap_append, List.append_assoc, List.singleton_append]
  · have hordered : t.block.Ordered := htop t (by simp)
    simp only [pruneTop, List.filterMap_append, List.filterMap_cons,
      Block.prune?_take? hordered htake hm]

/-! ### All rounds -/

/-- With distinct identities, clearing a canvas of a variable comes to pruning: a round takes a block
off that refers to the variable, which leaves the pruned chains the same, and when there is no such
block they are the chains themselves. -/
theorem Clears.top_eq {w w' : Workspace} {h : Handle} {rounds : Nat} (hc : Clears h rounds w w')
    (hw : w.Ordered) (hids : (w.nodes.map Node.id).Nodup) : w'.top = pruneTop h w.top := by
  induction hc with
  | done hnone => exact (pruneTop_eq_self hnone).symm
  | round hid hremove _ ih =>
    obtain ⟨left, htake, rfl⟩ := exists_take?_of_remove hremove
    -- as identities are distinct, the block that goes is the one that refers to the variable
    obtain ⟨user, huser, rfl, hm⟩ := exists_of_firstUser? hid
    obtain ⟨left', -, -, htake', -⟩ := exists_take? hids (find?_of_mem_walk hids huser) .alone
    obtain ⟨rfl, rfl⟩ := Prod.mk.inj (Option.some.inj (htake.symm.trans htake'))
    have hleft := (List.nodup_append.mp (nodup_take? hids htake)).2.1
    rw [ih (ordered_take? hw htake).2 hleft, pruneTop_take? hw htake hm]

/-- With as many rounds as there are blocks, deleting users one after the other comes to pruning. -/
theorem removeUsers_eq_pruneTop {w : Workspace} (hw : w.Ordered)
    (hids : (w.nodes.map Node.id).Nodup) (h : Handle) {n : Nat} (hn : w.nodes.length ≤ n) :
    removeUsers h n w.top = (.ok (), pruneTop h w.top) := by
  obtain ⟨rounds, w', hc, hcount⟩ := exists_clears h w
  rw [w.length_nodes] at hn
  rw [hc.removeUsers_eq (by omega), hc.top_eq hw hids]

/-- **Deleting a variable is pruning.** With distinct identities, if the variable is declared its
deletion succeeds: the chains are pruned of the variable in one pass, and the registry has lost the
variable and nothing else. If it is not declared the deletion is refused and changes nothing. -/
theorem deleteVariable_eq_prune {w : Workspace} (hr : w.registry.Built) (hw : w.Ordered)
    (hids : (w.nodes.map Node.id).Nodup) (h : Handle) :
    (w.registry.declares h → w.deleteVariable h = (.ok (),
      { w with
        top := pruneTop h w.top
        registry := { w.registry with vars := w.registry.vars.filter (·.handle ≠ h) } })) ∧
    (¬ w.registry.declares h → w.deleteVariable h = (.error (.unknownVariable h), w)) := by
  constructor
  · intro hdeclared
    have hcount : w.nodes.length ≤ w.blockCount := by
      rw [blockCount, ← map_node_walk, List.length_map]
    have hregistry : w.registry.remove h =
        { w.registry with vars := w.registry.vars.filter (·.handle ≠ h) } := by
      rw [← Registry.vars_remove hr.nodup_handles]
      rfl
    rw [deleteVariable, if_pos hdeclared, removeUsers_eq_pruneTop hw hids h hcount, hregistry]
  · intro hnot
    rw [deleteVariable, if_neg hnot]

/-- Of four blocks one below the other the first and the third refer to the variable, as do the
values of the first and the second. -/
theorem deleteVariable_eq_prune_nested :
    let r := (Registry.empty.declare ⟨"a"⟩ "x").declare ⟨"b"⟩ "y"
    let get (id h : String) : Node := ⟨⟨id⟩, .variableGet, ⟨[("VAR", .var ⟨h⟩)]⟩⟩
    let set (id h : String) : Node := ⟨⟨id⟩, .variableSet, ⟨[("VAR", .var ⟨h⟩)]⟩⟩
    let print (id : String) : Node := ⟨⟨id⟩, .print, .empty⟩
    let w : Workspace := .ofParts
      [⟨⟨set "s" "a", .cons (.input "VALUE") (get "g" "a") .nil
        (.cons .next (print "p") (.cons (.input "VALUE") (get "l" "a") .nil
          (.cons .next (set "t" "a") (.cons .next (print "q") .nil .nil) .nil)) .nil)⟩, none⟩] r
    w.registry.Built ∧ w.Ordered ∧ (w.nodes.map Node.id).Nodup ∧ w.registry.declares ⟨"a"⟩ ∧
      pruneTop ⟨"a"⟩ w.top = [⟨⟨print "p", .cons .next (print "q") .nil .nil⟩, none⟩] ∧
      w.deleteVariable ⟨"a"⟩ = (.ok (),
        { w with
          top := pruneTop ⟨"a"⟩ w.top
          registry := { w.registry with vars := w.registry.vars.filter (·.handle ≠ ⟨"a"⟩) } }) := by
  intro r get set print w
  have hr : r.Built := .declare (.declare .empty _ _) _ _
  have hw : w.Ordered := by
    intro t ht
    obtain rfl := List.mem_singleton.mp ht
    simp [Block.Ordered, Children.Ordered, Slot.before, Fields.Sorted, Fields.empty, get, set, print]
  have hids : (w.nodes.map Node.id).Nodup := by decide
  have hdeclared : w.registry.declares ⟨"a"⟩ := by decide
  exact ⟨hr, hw, hids, hdeclared, by decide,
    (deleteVariable_eq_prune hr hw hids ⟨"a"⟩).1 hdeclared⟩

end Workspace

end BlockProgram
