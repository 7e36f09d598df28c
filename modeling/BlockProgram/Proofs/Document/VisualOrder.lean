import BlockProgram.Proofs.Code.Arrangement
import BlockProgram.Proofs.Code.Handles
import BlockProgram.Proofs.Document.Places

/-!
# The order in which saved chains are seen

Chains are seen from top to bottom and from left to right, by the coordinates they are at. Saving
rounds coordinates and never turns two of them around, but it may make different ones equal, and
then the next criterion decides. So the chains of a canvas that is saved and restored come in the
same order exactly if none was told from another by a difference that is lost. Then the program in
the visual order is the same, and it always is where coordinates that differ stay different.
-/

namespace BlockProgram

open Document

/-! ### Saved chains -/

namespace Workspace

/-- A chain that is seen no later than another one is so at their saved places. -/
def KeepsOrder (w : Workspace) : Prop :=
  ∀ t ∈ w.top, ∀ u ∈ w.top, t.visualLE u → t.saved.visualLE u.saved

/-- Coordinates that differ are still different when they have been saved. -/
def KeepsApart (w : Workspace) : Prop :=
  ∀ t ∈ w.top, ∀ u ∈ w.top, ∀ p ∈ t.position, ∀ q ∈ u.position,
    (Coordinate.saved p.x = Coordinate.saved q.x → p.x = q.x) ∧
      (Coordinate.saved p.y = Coordinate.saved q.y → p.y = q.y)

variable {w : Workspace}

theorem nodup_heads (hids : (w.nodes.map Node.id).Nodup) :
    (w.top.map fun t => t.block.id).Nodup := by
  have hsublist : (w.top.map fun t => t.block.node).Sublist w.nodes := by
    rw [nodes]
    induction w.top with
    | nil => exact List.Sublist.slnil
    | cons t ts ih =>
      rw [List.map_cons, topNodes_cons, Block.nodes]
      exact (ih.trans (List.sublist_append_right _ _)).cons_cons _
  have hmap := (hsublist.map Node.id).nodup hids
  rwa [List.map_map] at hmap

/-- **Saving never turns two coordinates around**, so that the order is kept where all of them stay
apart. -/
theorem KeepsApart.keepsOrder (h : w.KeepsApart) : w.KeepsOrder := by
  have hstrict : ∀ {c d : Double}, (Coordinate.saved c = Coordinate.saved d → c = d) →
      c.rank < d.rank → (Coordinate.saved c).rank < (Coordinate.saved d).rank := by
    intro c d happart hlt
    refine lt_of_le_of_ne (Coordinate.rank_saved_mono hlt.le) fun heq => ?_
    rw [happart (Double.rank_injective heq)] at hlt
    exact lt_irrefl _ hlt
  intro t ht u hu hle
  rw [TopBlock.visualLE_iff] at hle ⊢
  unfold TopBlock.place TopBlock.saved at *
  cases hq : u.position with
  | none => exact le_top
  | some q =>
    cases hp : t.position with
    | none =>
      rw [hp, hq] at hle
      exact absurd hle (WithTop.not_top_le_coe _)
    | some p =>
      obtain ⟨hx, hy⟩ := h t ht u hu p hp q hq
      rw [hp, hq] at hle
      dsimp only [Option.map_some] at hle ⊢
      rw [WithTop.coe_le_coe, Prod.Lex.toLex_le_toLex, Prod.Lex.toLex_le_toLex] at hle ⊢
      rcases hle with hlt | ⟨heq, hlt | ⟨heq', hid⟩⟩
      · exact .inl (hstrict hy hlt)
      · refine .inr ⟨?_, .inl (hstrict hx hlt)⟩
        dsimp only [Position.saved]
        rw [Double.rank_injective heq]
      · refine .inr ⟨?_, .inr ⟨?_, hid⟩⟩
        · dsimp only [Position.saved]
          rw [Double.rank_injective heq]
        · dsimp only [Position.saved]
          rw [Double.rank_injective heq']

/-- Where the order is kept, chains are told apart as before. -/
theorem KeepsOrder.visualLE_saved (hids : (w.nodes.map Node.id).Nodup) (h : w.KeepsOrder) :
    ∀ t ∈ w.top, ∀ u ∈ w.top, t.visualLE u = t.saved.visualLE u.saved := by
  intro t ht u hu
  rw [Bool.eq_iff_iff]
  refine ⟨h t ht u hu, fun hle => ?_⟩
  rcases Bool.or_eq_true_iff.mp (t.visualLE_total u) with htu | hut
  · exact htu
  · -- the chains are seen in the other order as well, so that they are one or have no place
    rcases TopBlock.cases_of_visualLE hle (h u hu t ht hut) with ⟨hp, hq⟩ | hid
    · have hp : t.position = none := Option.map_eq_none_iff.mp hp
      have hq : u.position = none := Option.map_eq_none_iff.mp hq
      unfold TopBlock.visualLE
      rw [hp, hq]
    · rw [List.inj_on_of_nodup_map (nodup_heads hids) ht hu hid]
      exact u.visualLE_refl

/-- If saving leaves the chains in their places of the visual order, the order is kept. -/
theorem keepsOrder_of_arrange (hids : (w.nodes.map Node.id).Nodup)
    (h : (Program.arrange .visual w.saved.top).map TopBlock.block =
      (Program.arrange .visual w.top).map TopBlock.block) : w.KeepsOrder := by
  let after := w.top.mergeSort fun t u => t.saved.visualLE u.saved
  have hsaved : after.map TopBlock.saved = Program.arrange .visual w.saved.top :=
    List.map_mergeSort (s := TopBlock.visualLE) fun t _ u _ => rfl
  have hinj := List.inj_on_of_nodup_map (nodup_heads hids)
  -- distinct chains have distinct blocks, so that the chains themselves come in one order
  have hsame : after = w.top.mergeSort TopBlock.visualLE := by
    rw [← hsaved, List.map_map] at h
    refine List.ext_getElem (by simp [after]) fun i hi hi' => ?_
    have hget := congrArg (·[i]?) h
    rw [Program.arrange, List.getElem?_map, List.getElem?_map, List.getElem?_eq_getElem hi,
      List.getElem?_eq_getElem hi'] at hget
    exact hinj (List.mem_mergeSort.mp (List.getElem_mem hi))
      (List.mem_mergeSort.mp (List.getElem_mem hi')) (congrArg Block.id (Option.some.inj hget))
  have hbefore := List.pairwise_mergeSort TopBlock.visualLE_trans TopBlock.visualLE_total w.top
  have hafter : after.Pairwise fun t u => t.saved.visualLE u.saved :=
    List.pairwise_mergeSort (fun t u v => TopBlock.visualLE_trans t.saved u.saved v.saved)
      (fun t u => TopBlock.visualLE_total t.saved u.saved) w.top
  rw [hsame] at hafter
  let both (t u : TopBlock) : Prop :=
    (t.visualLE u → t.saved.visualLE u.saved) ∧ (u.visualLE t → u.saved.visualLE t.saved)
  have hsymm : Std.Symm both := ⟨fun t u h => ⟨h.2, h.1⟩⟩
  have hpairs : (w.top.mergeSort TopBlock.visualLE).Pairwise both := by
    refine (hbefore.and hafter).imp_of_mem fun {t u} ht hu hle => ⟨fun _ => hle.2, fun hback => ?_⟩
    rcases TopBlock.cases_of_visualLE hle.1 hback with ⟨hp, hq⟩ | hid
    · unfold TopBlock.visualLE TopBlock.saved
      rw [hp, hq]
      rfl
    · rw [hinj (List.mem_mergeSort.mp ht) (List.mem_mergeSort.mp hu) hid]
      exact u.saved.visualLE_refl
  intro t ht u hu
  exact (hpairs.forall_of_forall (fun t _ => ⟨fun _ => t.saved.visualLE_refl,
    fun _ => t.saved.visualLE_refl⟩) (List.mem_mergeSort.mpr ht) (List.mem_mergeSort.mpr hu)).1

/-- **The visual order is kept exactly where no difference is lost that told chains apart.** -/
theorem arrange_saved_iff (hids : (w.nodes.map Node.id).Nodup) :
    (Program.arrange .visual w.saved.top).map TopBlock.block =
      (Program.arrange .visual w.top).map TopBlock.block ↔ w.KeepsOrder := by
  refine ⟨keepsOrder_of_arrange hids, fun h => ?_⟩
  have harrange : (Program.arrange .visual w.top).map TopBlock.saved =
      Program.arrange .visual w.saved.top := List.map_mergeSort (h.visualLE_saved hids)
  rw [← harrange, List.map_map]
  rfl

/-- **The visual order of a canvas that is saved.** It is restored with all its chains at their
saved places. They are seen in the order in which they were seen if and only if saving keeps the
order, and then the program in the visual order is the same. Saving keeps the order if coordinates
that differ stay different. -/
theorem Restorable.program_visual {w : Workspace} (hw : w.Restorable) :
    ∃ w', Document.read (Document.write w) = .ok w' ∧ w'.top = w.saved.top ∧
      ((Program.arrange .visual w'.top).map TopBlock.block =
        (Program.arrange .visual w.top).map TopBlock.block ↔ w.KeepsOrder) ∧
      (w.KeepsOrder → w'.program .visual = w.program .visual) ∧
      (w.KeepsApart → w.KeepsOrder) := by
  obtain ⟨w', hread, htop, hvars⟩ := hw.read_saved
  have horder := arrange_saved_iff hw.sound.ids
  rw [← htop] at horder
  refine ⟨w', hread, htop, horder, fun h => ?_, KeepsApart.keepsOrder⟩
  exact Program.text_congr_blocks (horder.mpr h) (Registry.lookup_congr hvars)

/-- A chain without a place, and one that is a tenth below the top. -/
theorem Restorable.program_visual_lower :
    let chain (id : String) (position : Option Position) : TopBlock :=
      ⟨.leaf ⟨id⟩ .text ⟨[("TEXT", .text id)]⟩, position⟩
    let w : Workspace := .ofParts
      [chain "a" none, chain "b" (some ⟨.zero true, ⟨false, 0x3FB999999999999A⟩⟩)] .empty
    w.Restorable ∧
    ∃ w', Document.read (Document.write w) = .ok w' ∧ w'.top = w.saved.top ∧
      ((Program.arrange .visual w'.top).map TopBlock.block =
        (Program.arrange .visual w.top).map TopBlock.block ↔ w.KeepsOrder) ∧
      (w.KeepsOrder → w'.program .visual = w.program .visual) ∧
      (w.KeepsApart → w.KeepsOrder) := by
  intro chain w
  have hordered : ∀ id position, (chain id position).block.Ordered :=
    fun id position => ⟨List.pairwise_singleton _ _, trivial⟩
  have hw : w.Restorable := by
    refine ⟨⟨?_, by decide, by decide, by unfold Node.Bound; decide⟩, ?_, by decide, by decide⟩
    · exact List.forall_mem_cons.mpr ⟨hordered _ _, List.forall_mem_singleton.mpr (hordered _ _)⟩
    · exact List.forall_mem_cons.mpr ⟨⟨"text", rfl⟩, List.forall_mem_singleton.mpr ⟨"text", rfl⟩⟩
  exact ⟨hw, hw.program_visual⟩

theorem arrange_pair (t u : TopBlock) :
    Program.arrange .visual [t, u] = if t.visualLE u then [t, u] else [u, t] := by
  simp [Program.arrange, List.mergeSort, List.MergeSort.Internal.splitInTwo, List.merge]

/-- Of two chains less than a millionth below the top the first one is farther up and farther to the
right. Both are saved at the top, so that the second one is seen first from then on. -/
theorem program_visual_rounded :
    let chain (id : String) (x y : Double) : TopBlock :=
      ⟨.leaf ⟨id⟩ .text ⟨[("TEXT", .text id)]⟩, some ⟨x, y⟩⟩
    let w : Workspace := .ofParts
      [chain "a" ⟨false, 0x4014000000000000⟩ ⟨false, 0x3E8AD7F29ABCAF48⟩,
        chain "b" (.zero false) ⟨false, 0x3E9AD7F29ABCAF48⟩] .empty
    w.Restorable ∧ w.program .visual = "\"a\"\n\"b\"\n" ∧
    ∃ w', Document.read (Document.write w) = .ok w' ∧ w'.program .visual = "\"b\"\n\"a\"\n" := by
  intro chain w
  have hordered : ∀ id x y, (chain id x y).block.Ordered :=
    fun id x y => ⟨List.pairwise_singleton _ _, trivial⟩
  have hw : w.Restorable := by
    refine ⟨⟨?_, by decide, by decide, by unfold Node.Bound; decide⟩, ?_, by decide, by decide⟩
    · exact List.forall_mem_cons.mpr
        ⟨hordered _ _ _, List.forall_mem_singleton.mpr (hordered _ _ _)⟩
    · exact List.forall_mem_cons.mpr ⟨⟨"text", rfl⟩, List.forall_mem_singleton.mpr ⟨"text", rfl⟩⟩
  have hprogram : ∀ t u, (Workspace.ofParts [t, u] .empty).program .visual =
      String.join ((if t.visualLE u then [t, u] else [u, t]).map fun t =>
        t.block.render .empty 0) := by
    intro t u
    rw [Workspace.program, Program.text, Workspace.ofParts, arrange_pair]
    rfl
  have hsaved : w.saved.program .visual = "\"b\"\n\"a\"\n" :=
    (hprogram (chain "a" _ _).saved (chain "b" _ _).saved).trans (by decide +kernel)
  obtain ⟨w', hread, htop, hvars⟩ := hw.read_saved
  refine ⟨hw, (hprogram _ _).trans (by decide +kernel), w', hread, ?_⟩
  rw [← hsaved]
  exact Program.text_congr_blocks (by rw [htop]) (Registry.lookup_congr hvars)

end Workspace

end BlockProgram
