import BlockProgram.Code.Program
import Mathlib.Data.Int.ConditionallyCompleteOrder
import Mathlib.Data.List.Pairwise
import Mathlib.Data.Prod.Lex
import Mathlib.Data.String.Basic
import Mathlib.Order.ConditionallyCompleteLattice.Basic

/-!
# How chains are arranged

In the visual order the chains that have a place come first, from top to bottom, then from left to
right, then by identity, and the chains without a place follow as they came. Where no two chains
share an identity this describes one arrangement only, so that the program does not depend on how
the chains with a place were entered.
-/

namespace BlockProgram

/-! ### The visual order -/

namespace TopBlock

/-- Where a chain comes in the visual order: by the coordinate downwards, then by the one to the
right, then by its identity, and after all others if it has no place. -/
def place (t : TopBlock) : WithTop (ℤ ×ₗ ℤ ×ₗ String) :=
  match t.position with
  | some p => ↑(toLex (p.y.rank, toLex (p.x.rank, t.block.id.text)))
  | none => ⊤

theorem place_eq_top {t : TopBlock} : t.place = ⊤ ↔ t.position = none := by
  unfold place
  cases t.position <;> simp

theorem visualLE_iff (t u : TopBlock) : t.visualLE u ↔ t.place ≤ u.place := by
  unfold visualLE place
  cases t.position with
  | none =>
    cases u.position with
    | none => exact iff_of_true rfl le_rfl
    | some q => exact iff_of_false Bool.false_ne_true (WithTop.not_top_le_coe _)
  | some p =>
    cases u.position with
    | none => exact iff_of_true rfl le_top
    | some q =>
      dsimp only
      rw [WithTop.coe_le_coe, Prod.Lex.toLex_le_toLex, Prod.Lex.toLex_le_toLex, Position.visualLE]
      dsimp only
      split
      · rename_i hy
        rw [decide_eq_true_eq, or_iff_left fun h => hy h.1]
      · rename_i hy
        rw [ne_eq, not_not] at hy
        split
        · rename_i hx
          rw [decide_eq_true_eq]
          omega
        · rename_i hx
          rw [ne_eq, not_not] at hx
          rw [decide_eq_true_eq]
          simp [hx, hy]

theorem visualLE_refl (t : TopBlock) : t.visualLE t := (visualLE_iff t t).mpr le_rfl

theorem visualLE_trans (t u v : TopBlock) (htu : t.visualLE u) (huv : u.visualLE v) :
    t.visualLE v := by
  rw [visualLE_iff] at htu huv ⊢
  exact htu.trans huv

theorem visualLE_total (t u : TopBlock) : t.visualLE u || u.visualLE t := by
  rw [Bool.or_eq_true, visualLE_iff, visualLE_iff]
  exact le_total t.place u.place

/-- Chains that come at the same point have no place, or they have one identity. -/
theorem cases_of_place_eq {t u : TopBlock} (hplace : t.place = u.place) :
    (t.position = none ∧ u.position = none) ∨ t.block.id = u.block.id := by
  unfold place at hplace
  split at hplace
  · split at hplace
    · have hkey := congrArg (fun k => (ofLex (ofLex k).2).2) (WithTop.coe_injective hplace)
      exact .inr (congrArg BlockId.mk hkey)
    · cases hplace
  · split at hplace
    · cases hplace
    · exact .inl ⟨by assumption, by assumption⟩

/-- Chains that are not told apart have no place, or they have one identity. -/
theorem cases_of_visualLE {t u : TopBlock} (htu : t.visualLE u) (hut : u.visualLE t) :
    (t.position = none ∧ u.position = none) ∨ t.block.id = u.block.id := by
  rw [visualLE_iff] at htu hut
  exact cases_of_place_eq (le_antisymm htu hut)

end TopBlock

/-! ### The arrangement -/

namespace Program

/-- Chains as they are seen: those with a place from first to last, and then those without a place
as they came. -/
def IsVisual (top shown : List TopBlock) : Prop :=
  ∃ placed, shown = placed ++ top.filter (·.position.isNone) ∧
    placed.Perm (top.filter (·.position.isSome)) ∧ placed.Pairwise fun t u => t.place < u.place

/-- Chains in the order of their places: those that have none come last. -/
theorem eq_filter_append_of_pairwise {ts : List TopBlock}
    (h : ts.Pairwise fun t u => t.place ≤ u.place) :
    ts = ts.filter (·.position.isSome) ++ ts.filter (·.position.isNone) := by
  induction ts with
  | nil => rfl
  | cons t ts ih =>
    obtain ⟨hfirst, hrest⟩ := List.pairwise_cons.mp h
    cases ht : t.position with
    | some p => simpa [ht] using ih hrest
    | none =>
      -- nothing with a place can follow
      have hlast : ∀ u ∈ ts, u.position = none := by
        intro u hu
        have hle := hfirst u hu
        rw [TopBlock.place_eq_top.mpr ht, top_le_iff] at hle
        exact TopBlock.place_eq_top.mp hle
      have hsome : ts.filter (·.position.isSome) = [] := by
        simpa using hlast
      have hnone : ts.filter (·.position.isNone) = ts := by
        simpa using hlast
      simp [ht, hsome, hnone]

/-- Sorting leaves the chains without a place as they came. -/
theorem filter_isNone_arrange (top : List TopBlock) :
    (arrange .visual top).filter (·.position.isNone) = top.filter (·.position.isNone) := by
  let unplaced := top.filter (·.position.isNone)
  have hequal : unplaced.Pairwise fun t u => t.visualLE u := by
    refine List.pairwise_of_forall_mem_list fun t ht u hu => ?_
    have hu : u.position = none := by simpa using (List.mem_filter.mp hu).2
    rw [TopBlock.visualLE_iff, TopBlock.place_eq_top.mpr hu]
    exact le_top
  have hstable : unplaced.Sublist (arrange .visual top) :=
    List.sublist_mergeSort TopBlock.visualLE_trans TopBlock.visualLE_total hequal
      List.filter_sublist
  have hsublist := hstable.filter (·.position.isNone)
  simp only [unplaced, List.filter_filter, Bool.and_self] at hsublist
  have hperm := (List.mergeSort_perm top TopBlock.visualLE).filter (·.position.isNone)
  exact (hsublist.eq_of_length hperm.length_eq.symm).symm

/-- **The chains are arranged as they are seen.** -/
theorem isVisual_arrange {top : List TopBlock} (hids : (top.map fun t => t.block.id).Nodup) :
    IsVisual top (arrange .visual top) := by
  have hperm : (arrange .visual top).Perm top := List.mergeSort_perm top _
  have hsorted : (arrange .visual top).Pairwise fun t u => t.place ≤ u.place :=
    (List.pairwise_mergeSort TopBlock.visualLE_trans TopBlock.visualLE_total top).imp fun h =>
      (TopBlock.visualLE_iff _ _).mp h
  have hapart : (arrange .visual top).Pairwise fun t u => t.block.id ≠ u.block.id :=
    List.pairwise_map.mp ((hperm.map _).nodup_iff.mpr hids)
  refine ⟨(arrange .visual top).filter (·.position.isSome), ?_, hperm.filter _, ?_⟩
  · rw [← filter_isNone_arrange]
    exact eq_filter_append_of_pairwise hsorted
  · refine ((hsorted.and hapart).filter _).imp_of_mem fun {t u} ht hu hle => ?_
    refine lt_of_le_of_ne hle.1 fun heq => ?_
    rcases TopBlock.cases_of_place_eq heq with ⟨hnone, -⟩ | hid
    · simp [hnone] at ht
    · exact hle.2 hid

/-- Chains are seen in one way, whatever the order in which those with a place were entered. -/
theorem IsVisual.unique {top top' shown shown' : List TopBlock} (h : IsVisual top shown)
    (h' : IsVisual top' shown') (hperm : top'.Perm top)
    (hunplaced : top'.filter (·.position.isNone) = top.filter (·.position.isNone)) :
    shown' = shown := by
  obtain ⟨placed, rfl, hplaced, hsorted⟩ := h
  obtain ⟨placed', rfl, hplaced', hsorted'⟩ := h'
  have hsame : placed'.Perm placed := hplaced'.trans ((hperm.filter _).trans hplaced.symm)
  rw [hunplaced, hsame.eq_of_pairwise (fun t u _ _ htu hut => absurd hut htu.asymm)
    hsorted' hsorted]

/-- **The program in the visual order.** If no two chains share an identity, it is the texts of all
chains as they are seen, or the mark of an empty program if there are none, and it is the same for
every other list of these chains in which those without a place come in the same order. -/
theorem text_visual (r : Registry) {top : List TopBlock}
    (hids : (top.map fun t => t.block.id).Nodup) :
    (∃ shown, IsVisual top shown ∧ text .visual r top =
      if top.isEmpty then emptyText else String.join (shown.map fun t => t.block.render r 0)) ∧
    ∀ top' : List TopBlock, top'.Perm top →
      top'.filter (·.position.isNone) = top.filter (·.position.isNone) →
      text .visual r top' = text .visual r top := by
  have hvisual := isVisual_arrange hids
  refine ⟨⟨_, hvisual, rfl⟩, fun top' hperm hunplaced => ?_⟩
  have hids' : (top'.map fun t => t.block.id).Nodup :=
    (hperm.map fun t => t.block.id).nodup_iff.mpr hids
  have harrange : arrange .visual top' = arrange .visual top :=
    hvisual.unique (isVisual_arrange hids') hperm hunplaced
  have hempty : top'.isEmpty = top.isEmpty := by
    rw [Bool.eq_iff_iff, List.isEmpty_iff, List.isEmpty_iff]
    exact ⟨fun h => (h ▸ hperm).nil_eq.symm, fun h => (h ▸ hperm).eq_nil⟩
  rw [text, text, harrange, hempty]

/-- Of four chains two are told apart by their identities only, one is above them by the sign of a
zero, and the one without a place was entered first. -/
theorem text_visual_entered :
    let chain (id : String) (position : Option Position) : TopBlock :=
      ⟨.leaf ⟨id⟩ .text ⟨[("TEXT", .text id)]⟩, position⟩
    let corner : Position := ⟨.zero false, .zero false⟩
    let top := [chain "d" none, chain "b" (some corner), chain "a" (some corner),
      chain "c" (some ⟨.nan false, .zero true⟩)]
    let entered := [chain "c" (some ⟨.nan false, .zero true⟩), chain "a" (some corner),
      chain "d" none, chain "b" (some corner)]
    (top.map fun t => t.block.id).Nodup ∧ entered.Perm top ∧
    (∃ shown, IsVisual top shown ∧ text .visual .empty top =
      if top.isEmpty then emptyText else String.join (shown.map fun t => t.block.render .empty 0)) ∧
    text .visual .empty entered = text .visual .empty top := by
  intro chain corner top entered
  have hids : (top.map fun t => t.block.id).Nodup := by decide
  have hperm : entered.Perm top := by decide
  obtain ⟨hshown, hsame⟩ := text_visual .empty hids
  exact ⟨hids, hperm, hshown, hsame entered hperm (by decide)⟩

/-- No chains have no texts, and yet the program is not the empty text. -/
theorem text_visual_of_none :
    ¬ ∃ shown, IsVisual [] shown ∧
      text .visual .empty [] = String.join (shown.map fun t => t.block.render .empty 0) := by
  rintro ⟨shown, ⟨placed, rfl, hplaced, -⟩, htext⟩
  rw [List.Perm.eq_nil hplaced] at htext
  exact absurd htext (by decide)

end Program

end BlockProgram
