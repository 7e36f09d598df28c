import BlockProgram.Fresh
import Mathlib.Data.List.Chain
import Mathlib.Data.List.Dedup
import Mathlib.Data.List.Nodup
import Mathlib.Data.List.Perm.Subperm

/-!
# Fresh names are free

`Fresh.next` tries a bounded number of candidates and then gives one out without a look.
Different numbers make different names, so among one more candidate than there are names
in use one is free, and the candidate given out is never in use. A search without a bound
ends therefore, and with the same candidate.
-/

namespace BlockProgram.Fresh

theorem name_injective (stem : String) : Function.Injective (name stem) := by
  intro a b h
  have hchars : (toString a).toList = (toString b).toList := by
    simpa [name] using congrArg String.toList h
  simp only [Nat.toString_eq_repr, Nat.toList_repr] at hchars
  have hvalue := congrArg (fun ds => Nat.ofDigitChars 10 ds 0) hchars
  simpa using hvalue

/-- No more candidates in a row are in use than there are names in use. -/
theorem le_length_of_inUse {stem : String} {used : List String} {last m : Nat}
    (h : ∀ k < m, name stem (last + 1 + k) ∈ used) : m ≤ used.dedup.length := by
  let candidates := (List.range m).map fun k => name stem (last + 1 + k)
  have hnodup : candidates.Nodup := by
    refine List.Nodup.map (fun a b hab => ?_) List.nodup_range
    have := name_injective stem hab
    omega
  have hsub : candidates ⊆ used.dedup := by
    intro s hs
    obtain ⟨k, hk, rfl⟩ := List.mem_map.mp hs
    exact List.mem_dedup.mpr (h k (List.mem_range.mp hk))
  simpa [candidates] using (hnodup.subperm hsub).length_le

/-- If the candidate given out is in use, then so are all that were tried. -/
theorem inUse_of_inUse_next {stem : String} {inUse : String → Bool} {tries last : Nat}
    (h : inUse (name stem (next stem inUse tries last))) :
    ∀ k < tries + 1, inUse (name stem (last + 1 + k)) := by
  induction tries generalizing last with
  | zero =>
    intro k hk
    obtain rfl : k = 0 := Nat.lt_one_iff.mp hk
    exact h
  | succ tries ih =>
    rw [next] at h
    split at h
    · rename_i hfirst
      intro k hk
      cases k with
      | zero => exact hfirst
      | succ k =>
        have := ih h k (Nat.lt_of_succ_lt_succ hk)
        rwa [show last + 1 + 1 + k = last + 1 + (k + 1) by omega] at this
    · rename_i hfirst
      exact absurd h hfirst

/-- **The candidate given out is free**, if no more names are in use than are tried. -/
theorem not_inUse_next (stem : String) (inUse : String → Bool) (used : List String)
    (hused : ∀ s, inUse s → s ∈ used) {tries : Nat} (htries : used.length ≤ tries) (last : Nat) :
    inUse (name stem (next stem inUse tries last)) = false := by
  by_contra h
  rw [Bool.not_eq_false] at h
  -- one more candidate than names in use
  have hall : tries + 1 ≤ used.dedup.length :=
    le_length_of_inUse fun k hk => hused _ (inUse_of_inUse_next h k hk)
  have hdedup := used.dedup_sublist.length_le
  omega

/-- No free candidate is passed over. -/
theorem next_le {stem : String} {inUse : String → Bool} {n : Nat} (hfree : inUse (name stem n) = false)
    (tries : Nat) {last : Nat} (hlast : last < n) : next stem inUse tries last ≤ n := by
  induction tries generalizing last with
  | zero => exact hlast
  | succ tries ih =>
    rw [next]
    split
    · rename_i hused
      have hne : last + 1 ≠ n := by
        rintro rfl
        rw [hfree] at hused
        cases hused
      exact ih (by omega)
    · exact hlast

/-! ### Searching without a bound -/

/-- `Search stem inUse last rounds n`: candidates are tried one after the other from the number after
`last`, without a bound, and the one with the number `n` is the first that is free, in so many
rounds. -/
inductive Search (stem : String) (inUse : String → Bool) : (last rounds n : Nat) → Prop where
  /-- The candidate is free. -/
  | found {last : Nat} (hfree : inUse (name stem (last + 1)) = false) :
    Search stem inUse last 1 (last + 1)
  /-- The candidate is in use, and the next one is tried. -/
  | skip {last rounds n : Nat} (hused : inUse (name stem (last + 1)))
      (hrest : Search stem inUse (last + 1) rounds n) : Search stem inUse last (rounds + 1) n

namespace Search

variable {stem : String} {inUse : String → Bool} {last rounds n : Nat}

theorem eq_add (h : Search stem inUse last rounds n) : n = last + rounds := by
  induction h with
  | found => rfl
  | skip _ _ ih => omega

/-- What is passed over is in use. -/
theorem inUse_of_lt (h : Search stem inUse last rounds n) :
    ∀ k, last < k → k < n → inUse (name stem k) := by
  induction h with
  | found => intro k hlast hk; omega
  | @skip last rounds n hused hrest ih =>
    intro k hlast hk
    obtain rfl | hlast : k = last + 1 ∨ last + 1 < k := by omega
    · exact hused
    · exact ih k hlast hk

/-- There is at most one more round than there are names in use. -/
theorem rounds_le (h : Search stem inUse last rounds n) {used : List String}
    (hused : ∀ s, inUse s → s ∈ used) : rounds ≤ used.dedup.length + 1 := by
  have hn := h.eq_add
  have hskipped : ∀ k < rounds - 1, name stem (last + 1 + k) ∈ used :=
    fun k hk => hused _ (h.inUse_of_lt _ (by omega) (by omega))
  have hle := le_length_of_inUse hskipped
  omega

end Search

/-- If the candidate given out is free, an unbounded search finds it. -/
theorem exists_search {stem : String} {inUse : String → Bool} {tries last : Nat}
    (hfree : inUse (name stem (next stem inUse tries last)) = false) :
    ∃ rounds, Search stem inUse last rounds (next stem inUse tries last) := by
  induction tries generalizing last with
  | zero => exact ⟨1, .found hfree⟩
  | succ tries ih =>
    rw [next] at hfree ⊢
    split at hfree
    · rename_i hused
      obtain ⟨rounds, h⟩ := ih hfree
      exact ⟨rounds + 1, by rw [if_pos hused]; exact .skip hused h⟩
    · rename_i hnot
      exact ⟨1, by rw [if_neg hnot]; exact .found hfree⟩

/-- A name with a number after `last` that is made up while some names are in use. -/
structure Made (stem : String) (inUse : String → Bool) (used : List String) (last n : Nat) :
    Prop where
  /-- The search ends, after at most one more round than there are names in use. -/
  ends : ∃ rounds, Search stem inUse last rounds n ∧ rounds ≤ used.dedup.length + 1
  /-- The name is not in use. -/
  free : name stem n ∉ used
  /-- Only names that are in use are passed over. -/
  skipped : ∀ k, last < k → k < n → name stem k ∈ used

theorem made_next (stem : String) {inUse : String → Bool} {used : List String}
    (hused : ∀ s, inUse s ↔ s ∈ used) {tries : Nat} (htries : used.length ≤ tries) (last : Nat) :
    Made stem inUse used last (next stem inUse tries last) := by
  have hfree := not_inUse_next stem inUse used (fun s => (hused s).mp) htries last
  obtain ⟨rounds, h⟩ := exists_search hfree
  refine ⟨⟨rounds, h, h.rounds_le fun s => (hused s).mp⟩, fun hmem => ?_,
    fun k hlast hk => (hused _).mp (h.inUse_of_lt k hlast hk)⟩
  rw [(hused _).mpr hmem] at hfree
  cases hfree

/-- Names whose numbers go up are distinct, whatever they are the names of. -/
theorem nodup_names {α β : Type} (number : α → Nat) {as : List α}
    (h : as.IsChain fun a b => number a < number b) (stem : String) {mk : String → β}
    (hmk : Function.Injective mk) : (as.map fun a => mk (name stem (number a))).Nodup := by
  have hnumbers : (as.map number).IsChain (· < ·) := (List.isChain_map number).mpr h
  have hnodup : (as.map number).Nodup :=
    (List.isChain_iff_pairwise.mp hnumbers).imp fun hlt => Nat.ne_of_lt hlt
  simpa [Function.comp_def] using hnodup.map (hmk.comp (name_injective stem))

end BlockProgram.Fresh
