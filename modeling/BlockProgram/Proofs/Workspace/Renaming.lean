import BlockProgram.Proofs.Workspace.References

/-!
# Renaming a variable

A variable that gets a new name keeps its handle, unless another variable goes by that name. Then
it is merged into that one: whatever referred to it refers to the other, and it is gone. Either way
the names of all other variables stay, though their places in the registry may shift, and the
program is the one that it would be if the variable just went by the new name.
-/

namespace BlockProgram

open Identifier

namespace Registry

variable {r : Registry} {h : Handle}

theorem position?_eq_none_iff : r.position? h = none ↔ h ∉ r.handles := by
  rw [position?, List.findIdx?_eq_none_iff, mem_handles]
  simp

/-- With distinct handles, a variable is found by its own. -/
theorem get?_of_mem (hr : r.handles.Nodup) {v : Variable} (hv : v ∈ r.vars) :
    r.get? v.handle = some v := by
  cases hu : r.get? v.handle with
  | none => exact absurd (List.mem_map_of_mem hv) (get?_eq_none_iff.mp hu)
  | some u =>
    obtain ⟨hmem, hhandle⟩ := mem_of_get? hu
    rw [eq_of_handle_eq hr hmem hv hhandle]

theorem lookup_eq_none (hh : h ∉ r.handles) : r.lookup (some h) = none := by
  simp [lookup, position?_eq_none_iff.mpr hh]

/-! ### Another name for one variable -/

/-- The registry with another name for a variable, whoever goes by that name already. -/
def relabel (r : Registry) (h : Handle) (name : String) : Registry :=
  { r with vars := r.vars.map fun v => if v.handle = h then { v with resolved := name } else v }

theorem handles_relabel (name : String) : (r.relabel h name).handles = r.handles := by
  rw [handles, relabel, List.map_map, handles]
  refine List.map_congr_left fun v _ => ?_
  by_cases hv : v.handle = h <;> simp [hv]

theorem getElem?_relabel {i : Nat} {v : Variable} (hv : r.vars[i]? = some v) (h : Handle)
    (name : String) :
    (r.relabel h name).vars[i]? =
      some (if v.handle = h then { v with resolved := name } else v) := by
  rw [relabel, List.getElem?_map, hv]
  rfl

/-- The variable goes by the new name. -/
theorem lookup_relabel_self (hr : r.handles.Nodup) (hh : h ∈ r.handles) {name : String}
    (hname : isIdentifier name) : (r.relabel h name).lookup (some h) = some name := by
  obtain ⟨v, hv, rfl⟩ := mem_handles.mp hh
  obtain ⟨i, hi⟩ := List.mem_iff_getElem?.mp hv
  have hrelabel := getElem?_relabel hi v.handle name
  rw [if_pos rfl] at hrelabel
  have hlookup := lookup_of_getElem? (by rwa [handles_relabel]) hrelabel
  rwa [sanitize_of_isIdentifier hname] at hlookup

/-- The other variables go by their names. -/
theorem lookup_relabel_of_ne (hr : r.handles.Nodup) {g : Handle} (hg : g ≠ h) (name : String) :
    (r.relabel h name).lookup (some g) = r.lookup (some g) := by
  by_cases hmem : g ∈ r.handles
  · obtain ⟨v, hv, rfl⟩ := mem_handles.mp hmem
    obtain ⟨i, hi⟩ := List.mem_iff_getElem?.mp hv
    have hrelabel := getElem?_relabel hi h name
    rw [if_neg hg] at hrelabel
    rw [lookup_of_getElem? hr hi]
    exact lookup_of_getElem? (by rwa [handles_relabel]) hrelabel
  · rw [lookup_eq_none hmem, lookup_eq_none (by rwa [handles_relabel])]

/-! ### Renaming in a clean registry -/

/-- In a clean registry a variable that gets a new name keeps its handle, or another variable goes
by the name and it is removed. Then the handle told goes by the name, and the other variables are
there as before. -/
theorem Clean.exists_rename (hr : r.Clean) {i : Nat} (hi : r.position? h = some i) (raw : String) :
    ∃ holder r' r'', r.rename h raw = some (holder, r') ∧
      r'' = (if holder = h then r' else r'.remove h) ∧ r''.Clean ∧
      (∃ v ∈ r''.vars, v.handle = holder ∧ v.resolved = sanitize (some raw) i) ∧
      (∀ v ∈ r.vars, v.handle ≠ h → v ∈ r''.vars) ∧ r''.handles ⊆ r.handles ∧
      (h ∈ r''.handles ↔ holder = h) := by
  obtain ⟨u, hu, rfl⟩ := position?_eq_some hi
  cases hholder : r.holder? u.handle (sanitize (some raw) i) with
  | some v =>
    obtain ⟨hv, hname, hne⟩ := mem_of_holder? hholder
    refine ⟨v.handle, r, r.remove u.handle, by simp [Registry.rename, hi, hholder], by rw [if_neg hne],
      hr.remove _, ⟨v, ?_, rfl, hname⟩, ?_, ?_, ?_⟩
    · exact (mem_remove_iff hr.handles).mpr ⟨hv, hne⟩
    · exact fun v' hv' hne' => (mem_remove_iff hr.handles).mpr ⟨hv', hne'⟩
    · exact ((vars_remove_sublist r u.handle).map _).subset
    · refine ⟨fun hmem => ?_, fun heq => absurd heq hne⟩
      obtain ⟨x, hx, hxh⟩ := mem_handles.mp hmem
      exact absurd hxh ((mem_remove_iff hr.handles).mp hx).2
  | none =>
    have hrename : r.rename u.handle raw = some (u.handle, { r with vars := r.vars.modify i fun v =>
        { v with declared := raw, resolved := sanitize (some raw) i } }) := by
      simp [Registry.rename, hi, hholder]
    refine ⟨u.handle, _, _, hrename, by rw [if_pos rfl], hr.rename hrename, ?_, ?_, ?_, ?_⟩
    · refine ⟨{ u with declared := raw, resolved := sanitize (some raw) i }, ?_, rfl, rfl⟩
      exact List.mem_iff_getElem?.mpr ⟨i, by simp [hu]⟩
    · intro v hv hne
      obtain ⟨j, hj⟩ := List.mem_iff_getElem?.mp hv
      have hij : i ≠ j := by
        rintro rfl
        rw [hu] at hj
        cases hj
        exact hne rfl
      exact List.mem_iff_getElem?.mpr ⟨j, by simp [hij, hj]⟩
    · rw [handles_modify]
      exact List.Subset.refl _
    · refine ⟨fun _ => rfl, fun _ => ?_⟩
      rw [handles_modify]
      exact List.mem_map_of_mem (List.mem_of_getElem? hu)

end Registry

/-! ### Canvases -/

namespace Workspace

/-- What a canvas is like when a variable, which had a given place, has been given a name and goes
by a given handle. -/
structure Renamed (w : Workspace) (h : Handle) (place : Nat) (raw : String) (holder : Handle)
    (w' : Workspace) : Prop where
  /-- The variable with the handle goes by the identifier made of the name at that place. -/
  named : ∃ v, w'.registry.get? holder = some v ∧ v.resolved = sanitize (some raw) place
  /-- The handle stands for that identifier. -/
  stands : w'.registry.lookup (some holder) = some (sanitize (some raw) place)
  /-- Whatever referred to the variable refers to the handle, and nothing else has changed on the
  canvas. -/
  top : w'.top = w.top.map (TopBlock.mapHandle fun g => if g = h then holder else g)
  /-- Every other handle stands for what it stood for. -/
  others : ∀ g, g ≠ h → w'.registry.lookup (some g) = w.registry.lookup (some g)
  /-- The variable is still there unless it has been merged into another. -/
  declared : w'.registry.declares h ↔ holder = h
  /-- The program is that of the old canvas with the new name for the variable. -/
  program : ∀ order, w'.program order =
    Program.text order (w.registry.relabel h (sanitize (some raw) place)) w.top

/-- The canvas after a variable has been renamed, in both cases. -/
theorem renameVariable_eq {w : Workspace} {h holder : Handle} {raw : String} {r : Registry}
    (hr : w.registry.rename h raw = some (holder, r)) :
    w.renameVariable h raw = (.ok holder,
      { w with
        top := w.top.map (TopBlock.mapHandle fun g => if g = h then holder else g)
        registry := if holder = h then r else r.remove h }) := by
  rw [renameVariable, hr]
  by_cases heq : holder = h
  · subst heq
    have hsame : (fun g => if g = holder then holder else g) = fun g : Handle => g := by
      funext g
      by_cases hg : g = holder <;> simp [hg]
    have htop : w.top.map (TopBlock.mapHandle fun g => g) = w.top := by
      refine (List.map_congr_left fun t _ => ?_).trans (List.map_id' w.top)
      rw [TopBlock.mapHandle, Block.map_mapHandle_id]
    simp only [if_true, hsame, htop]
  · simp only [heq, if_false]
    rfl

/-- **What renaming a variable does.** In a clean registry every declared variable can be renamed
to any name: its references and its name change as they should, every other name stays, and the
program is the old one with the new name for the variable, also when the variable is merged into
another that goes by the name. -/
theorem renameVariable_effect {w : Workspace} (hr : w.registry.Clean) {h : Handle}
    (hh : w.registry.declares h) (raw : String) :
    ∃ place holder w', w.registry.position? h = some place ∧
      w.renameVariable h raw = (.ok holder, w') ∧ w.Renamed h place raw holder w' := by
  have hmem := Registry.declares_iff.mp hh
  obtain ⟨place, hplace⟩ : ∃ place, w.registry.position? h = some place :=
    Option.ne_none_iff_exists'.mp fun hnone => Registry.position?_eq_none_iff.mp hnone hmem
  obtain ⟨holder, r', r'', hrename, rfl, hclean, ⟨v, hv, rfl, hname⟩, hkept, hsub, hdeclared⟩ :=
    hr.exists_rename hplace raw
  refine ⟨place, v.handle, _, hplace, renameVariable_eq hrename, ?_⟩
  have hstands := hclean.lookup_eq hv
  rw [hname] at hstands
  have hothers : ∀ g, g ≠ h → (if v.handle = h then r' else r'.remove h).lookup (some g) =
      w.registry.lookup (some g) := by
    intro g hg
    by_cases hgm : g ∈ w.registry.handles
    · obtain ⟨u, hu, rfl⟩ := Registry.mem_handles.mp hgm
      rw [hclean.lookup_eq (hkept u hu hg), hr.lookup_eq hu]
    · rw [Registry.lookup_eq_none hgm, Registry.lookup_eq_none fun hin => hgm (hsub hin)]
  refine ⟨⟨v, Registry.get?_of_mem hclean.handles hv, hname⟩, hstands, rfl, hothers, ?_, ?_⟩
  · rw [Registry.declares_iff]
    exact hdeclared
  · intro order
    refine Program.text_mapHandle (fun t _ n _ g _ => ?_) order
    by_cases hg : g = h
    · rw [if_pos hg, hg, hstands, Registry.lookup_relabel_self hr.handles hmem
        (isIdentifier_sanitize _ _)]
    · rw [if_neg hg, hothers g hg, Registry.lookup_relabel_of_ne hr.handles hg]

/-- The first of three variables is renamed to the name of the last, to which it is merged, so that
the places of the other two shift. -/
theorem renameVariable_effect_merged :
    let r := ((Registry.empty.declare ⟨"a"⟩ "x").declare ⟨"b"⟩ "y").declare ⟨"c"⟩ "_2"
    let get (id h : String) : Node := ⟨⟨id⟩, .variableGet, ⟨[("VAR", .var ⟨h⟩)]⟩⟩
    let set (id h : String) : Node := ⟨⟨id⟩, .variableSet, ⟨[("VAR", .var ⟨h⟩)]⟩⟩
    let w : Workspace := .ofParts
      [⟨⟨set "s" "a", .cons (.input "VALUE") (get "g" "b") .nil .nil⟩, none⟩,
        ⟨⟨get "l" "c", .nil⟩, none⟩] r
    w.registry.Clean ∧ w.registry.declares ⟨"a"⟩ ∧
      ∃ place holder w', w.registry.position? ⟨"a"⟩ = some place ∧
        w.renameVariable ⟨"a"⟩ "2" = (.ok holder, w') ∧ w.Renamed ⟨"a"⟩ place "2" holder w' := by
  intro r get set w
  have hclean : w.registry.Clean := ⟨by decide, by decide, by decide⟩
  have hdeclared : w.registry.declares ⟨"a"⟩ := by decide
  exact ⟨hclean, hdeclared, renameVariable_effect hclean hdeclared "2"⟩

end Workspace

end BlockProgram
