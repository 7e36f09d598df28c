import BlockProgram.Variable.Registry
import BlockProgram.Proofs.Fresh
import BlockProgram.Proofs.Identifier
import Mathlib.Data.List.Nodup

/-!
# Handles and names of a registry

The handles of a registry stay distinct whatever is done with it. A registry is called clean
if moreover its variables go by distinct identifiers; admitting, binding, renaming and removing
variables keep it clean, and in a clean registry a handle is resolved to exactly the name of
its variable.
-/

namespace BlockProgram

theorem Handle.mk_mem_iff {s : String} {hs : List Handle} :
    ⟨s⟩ ∈ hs ↔ s ∈ hs.map Handle.text := by
  refine ⟨fun h => List.mem_map_of_mem h, fun h => ?_⟩
  obtain ⟨g, hg, rfl⟩ := List.mem_map.mp h
  exact hg

namespace Registry

open Identifier

/-- The handles in the order of the variables. -/
def handles (r : Registry) : List Handle := r.vars.map Variable.handle

/-- The names that the variables go by, in their order. -/
def names (r : Registry) : List String := r.vars.map Variable.resolved

/-! ### Looking up -/

theorem mem_handles {r : Registry} {h : Handle} :
    h ∈ r.handles ↔ ∃ v ∈ r.vars, v.handle = h := List.mem_map

theorem get?_eq_none_iff {r : Registry} {h : Handle} : r.get? h = none ↔ h ∉ r.handles := by
  simp [get?, mem_handles]

theorem declares_iff {r : Registry} {h : Handle} : r.declares h ↔ h ∈ r.handles := by
  rw [declares, Option.isSome_iff_ne_none, ne_eq, get?_eq_none_iff, not_not]

theorem mem_of_get? {r : Registry} {h : Handle} {v : Variable} (hv : r.get? h = some v) :
    v ∈ r.vars ∧ v.handle = h :=
  ⟨List.mem_of_find?_eq_some hv, by simpa using List.find?_some hv⟩

theorem mem_of_named? {r : Registry} {name : String} {v : Variable} (hv : r.named? name = some v) :
    v ∈ r.vars ∧ v.resolved = name :=
  ⟨List.mem_of_find?_eq_some hv, by simpa using List.find?_some hv⟩

theorem named?_eq_none_iff {r : Registry} {name : String} :
    r.named? name = none ↔ name ∉ r.names := by
  simp [named?, names]

theorem mem_of_holder? {r : Registry} {h : Handle} {name : String} {v : Variable}
    (hv : r.holder? h name = some v) : v ∈ r.vars ∧ v.resolved = name ∧ v.handle ≠ h :=
  ⟨List.mem_of_find?_eq_some hv, by simpa using List.find?_some hv⟩

/-- If no other variable goes by a name, then whichever goes by it has the handle. -/
theorem handle_eq_of_holder?_eq_none {r : Registry} {h : Handle} {name : String}
    (hn : r.holder? h name = none) {v : Variable} (hv : v ∈ r.vars) (hname : v.resolved = name) :
    v.handle = h := by
  by_contra hne
  have := List.find?_eq_none.mp hn v hv
  simp [hname, hne] at this

/-- With distinct handles, a handle tells its variable. -/
theorem eq_of_handle_eq {r : Registry} (hr : r.handles.Nodup) {u v : Variable} (hu : u ∈ r.vars)
    (hv : v ∈ r.vars) (h : u.handle = v.handle) : u = v :=
  List.inj_on_of_nodup_map hr hu hv h

/-! ### Making up handles -/

/-- The handle that is made up is found by a search through those of the variables. -/
theorem made_mint (r : Registry) :
    Fresh.Made "var_" (fun s => r.declares ⟨s⟩) (r.handles.map Handle.text) r.minted
      r.mint.2.minted := by
  refine Fresh.made_next "var_" (fun s => ?_) (by simp [handles]) r.minted
  rw [← Handle.mk_mem_iff, declares_iff]

theorem mint_not_mem (r : Registry) : r.mint.1 ∉ r.handles :=
  fun hmem => r.made_mint.free (Handle.mk_mem_iff.mp hmem)

@[simp] theorem handles_push (r : Registry) (v : Variable) :
    (r.push v).handles = r.handles ++ [v.handle] := by simp [handles]

theorem nodup_handles_push {r : Registry} (hr : r.handles.Nodup) {v : Variable}
    (hv : v.handle ∉ r.handles) : (r.push v).handles.Nodup := by
  rw [handles_push]
  exact List.nodup_append.mpr ⟨hr, List.nodup_singleton _, by
    rintro a ha b hb rfl
    exact hv (List.mem_singleton.mp hb ▸ ha)⟩

/-- A variable under a handle made up for it can be added. -/
theorem nodup_handles_mint {r : Registry} (hr : r.handles.Nodup) (declared resolved : String) :
    (r.mint.2.push ⟨r.mint.1, declared, resolved⟩).handles.Nodup :=
  nodup_handles_push (r := r.mint.2) hr r.mint_not_mem

/-- A variable that is added is found under its handle unless another one was before. -/
theorem get?_push (r : Registry) (v : Variable) (h : Handle) :
    (r.push v).get? h = (r.get? h).or (if v.handle = h then some v else none) := by
  by_cases hv : v.handle = h <;> simp [get?, List.find?_append, hv]

/-! ### What each operation does -/

theorem get?_declare (r : Registry) (h g : Handle) (name : String) :
    (r.declare h name).get? g = (r.get? g).or (if h = g then some ⟨g, name, name⟩ else none) := by
  rw [declare]
  split
  · rename_i hd
    by_cases hg : h = g
    · subst hg
      obtain ⟨v, hv⟩ := Option.isSome_iff_exists.mp hd
      rw [hv, Option.some_or]
    · rw [if_neg hg, Option.or_none]
  · rw [get?_push]
    by_cases hg : h = g <;> simp [hg]

/-- Admitting a name finds its holder, or adds a variable under a handle made up for it. -/
theorem register_cases (r : Registry) (name : String) :
    (∃ v ∈ r.vars, r.register name = (v.handle, r)) ∨
    (sanitize (some name) r.vars.length ∉ r.names ∧
      r.register name = (r.mint.1,
        r.mint.2.push ⟨r.mint.1, name, sanitize (some name) r.vars.length⟩)) := by
  rw [register]
  cases hn : r.named? (sanitize (some name) r.vars.length) with
  | some v => exact .inl ⟨v, (mem_of_named? hn).1, rfl⟩
  | none => exact .inr ⟨named?_eq_none_iff.mp hn, rfl⟩

/-- Binding a name finds who goes by it, or admits it. -/
theorem bind_cases (r : Registry) (name : String) :
    (∃ v ∈ r.vars, r.bind name = (v.handle, r)) ∨ r.bind name = r.register name := by
  rw [bind]
  cases hn : r.named? name with
  | some v => exact .inl ⟨v, (mem_of_named? hn).1, rfl⟩
  | none => exact .inr rfl

theorem position?_eq_some {r : Registry} {h : Handle} {i : Nat} (hi : r.position? h = some i) :
    ∃ v, r.vars[i]? = some v ∧ v.handle = h := by
  obtain ⟨hlt, hv, -⟩ := List.findIdx?_eq_some_iff_getElem.mp hi
  exact ⟨r.vars[i], List.getElem?_eq_getElem hlt, by simpa using hv⟩

/-- With distinct handles, a handle is found where its variable is. -/
theorem position?_of_getElem? {r : Registry} (hr : r.handles.Nodup) {i : Nat} {v : Variable}
    (hv : r.vars[i]? = some v) : r.position? v.handle = some i := by
  cases hj : r.position? v.handle with
  | none =>
    have := List.findIdx?_eq_none_iff.mp hj v (List.mem_of_getElem? hv)
    simp at this
  | some j =>
    obtain ⟨u, hu, huh⟩ := position?_eq_some hj
    have hlen : j < r.handles.length := by
      rw [handles, List.length_map]
      exact (List.getElem?_eq_some_iff.mp hu).1
    have heq : j = i := (List.getElem?_inj hlen hr).mp (by simp [handles, hu, hv, huh])
    rw [heq]

/-- With distinct handles, a handle stands for the identifier made of the name of its variable at
its place. -/
theorem lookup_of_getElem? {r : Registry} (hr : r.handles.Nodup) {i : Nat} {v : Variable}
    (hv : r.vars[i]? = some v) :
    r.lookup (some v.handle) = some (sanitize (some v.resolved) i) := by
  simp [lookup, position?_of_getElem? hr hv, hv]

/-- What a handle stands for depends on nothing but the handles and the names of the variables. -/
theorem lookup_congr {r r' : Registry}
    (h : r'.vars.map (fun v => (v.handle, v.resolved)) =
      r.vars.map fun v => (v.handle, v.resolved)) (g : Option Handle) :
    r'.lookup g = r.lookup g := by
  have hlookup : ∀ r : Registry, r.lookup g = g.bind fun g =>
      ((r.vars.map fun v => (v.handle, v.resolved)).findIdx? (·.1 = g)).bind fun index =>
        ((r.vars.map fun v => (v.handle, v.resolved))[index]?).bind fun e =>
          some (sanitize (some e.2) index) := by
    intro r
    simp only [lookup, position?, List.findIdx?_map, List.getElem?_map, Option.bind_map,
      Option.bind_eq_bind]
    rfl
  rw [hlookup, hlookup, h]

/-- Renaming is refused for an undeclared handle, finds another holder of the new name, or
gives the variable its new name. -/
theorem rename_cases (r : Registry) (h : Handle) (name : String) :
    (h ∉ r.handles ∧ r.rename h name = none) ∨
    ∃ i, r.position? h = some i ∧
      ((∃ v ∈ r.vars, v.handle ≠ h ∧ r.rename h name = some (v.handle, r)) ∨
        (r.holder? h (sanitize (some name) i) = none ∧
          r.rename h name = some (h, { r with vars := r.vars.modify i fun v =>
            { v with declared := name, resolved := sanitize (some name) i } }))) := by
  cases hi : r.position? h with
  | none =>
    refine .inl ⟨?_, by simp [rename, hi]⟩
    intro hmem
    obtain ⟨v, hv, hvh⟩ := mem_handles.mp hmem
    have := List.findIdx?_eq_none_iff.mp hi v hv
    simp [hvh] at this
  | some i =>
    refine .inr ⟨i, rfl, ?_⟩
    cases hh : r.holder? h (sanitize (some name) i) with
    | some v =>
      obtain ⟨hv, -, hne⟩ := mem_of_holder? hh
      exact .inl ⟨v, hv, hne, by simp [rename, hi, hh]⟩
    | none => exact .inr ⟨rfl, by simp [rename, hi, hh]⟩

theorem vars_remove_sublist (r : Registry) (h : Handle) : (r.remove h).vars.Sublist r.vars :=
  List.eraseP_sublist

/-- With distinct handles, removing takes away exactly the variable with the handle. -/
theorem mem_remove_iff {r : Registry} (hr : r.handles.Nodup) {h : Handle} {v : Variable} :
    v ∈ (r.remove h).vars ↔ v ∈ r.vars ∧ v.handle ≠ h := by
  constructor
  · intro hv
    refine ⟨(vars_remove_sublist r h).mem hv, ?_⟩
    rintro rfl
    obtain ⟨u, before, after, -, hu, hvars, hrest⟩ :=
      List.exists_of_eraseP (p := fun u => decide (u.handle = v.handle))
        ((vars_remove_sublist r _).mem hv) (by simp)
    have hv' : v ∈ before ++ after := by
      rw [← hrest]
      exact hv
    rw [handles, hvars, List.map_append, List.map_cons] at hr
    refine (List.nodup_middle.mp hr).notMem ?_
    rw [show u.handle = v.handle by simpa using hu, ← List.map_append]
    exact List.mem_map_of_mem hv'
  · rintro ⟨hv, hne⟩
    exact (List.mem_eraseP_of_neg (by simpa using hne)).mpr hv

/-- A renamed variable has its handle and its new name; the others are as they were. -/
theorem mem_modify {r : Registry} (hr : r.handles.Nodup) {h : Handle} {i : Nat}
    (hi : r.position? h = some i) {declared resolved : String} {v : Variable}
    (hv : v ∈ r.vars.modify i fun v => { v with declared := declared, resolved := resolved }) :
    (v.handle = h ∧ v.resolved = resolved) ∨ (v ∈ r.vars ∧ v.handle ≠ h) := by
  obtain ⟨u, hu, huh⟩ := position?_eq_some hi
  obtain ⟨j, hj⟩ := List.mem_iff_getElem?.mp hv
  rw [List.getElem?_modify] at hj
  obtain ⟨x, hx, rfl⟩ := Option.map_eq_some_iff.mp hj
  by_cases hij : i = j
  · subst hij
    obtain rfl : x = u := by rw [hx] at hu; exact Option.some.inj hu
    exact .inl (by simp [huh])
  · simp only [hij, if_false]
    refine .inr ⟨List.mem_of_getElem? hx, fun hxh => hij ?_⟩
    have hlen : i < r.handles.length := by
      rw [handles, List.length_map]
      exact (List.getElem?_eq_some_iff.mp hu).1
    refine (List.getElem?_inj hlen hr).mp ?_
    simp [handles, hu, hx, huh, hxh]

@[simp] theorem handles_modify (r : Registry) (i : Nat) (declared resolved : String) :
    Registry.handles { r with vars := r.vars.modify i fun v =>
      { v with declared := declared, resolved := resolved } } = r.handles := by
  refine List.ext_getElem? fun j => ?_
  simp only [handles, List.getElem?_map, List.getElem?_modify]
  split <;> cases r.vars[j]? <;> rfl

/-! ### Distinct handles -/

theorem nodup_register {r : Registry} (hr : r.handles.Nodup) (name : String) :
    (r.register name).2.handles.Nodup := by
  rcases register_cases r name with ⟨v, -, h⟩ | ⟨-, h⟩
  · rwa [h]
  · rw [h]
    exact nodup_handles_mint hr _ _

theorem nodup_bind {r : Registry} (hr : r.handles.Nodup) (name : String) :
    (r.bind name).2.handles.Nodup := by
  rcases bind_cases r name with ⟨v, -, h⟩ | h
  · rwa [h]
  · rw [h]
    exact nodup_register hr name

theorem nodup_declare {r : Registry} (hr : r.handles.Nodup) (h : Handle) (name : String) :
    (r.declare h name).handles.Nodup := by
  rw [declare]
  split
  · exact hr
  · rename_i hd
    exact nodup_handles_push hr fun hmem => hd (declares_iff.mpr hmem)

theorem nodup_rename {r r' : Registry} (hr : r.handles.Nodup) {h h' : Handle} {name : String}
    (hn : r.rename h name = some (h', r')) : r'.handles.Nodup := by
  rcases rename_cases r h name with ⟨-, hnone⟩ | ⟨i, hi, ⟨v, -, -, hs⟩ | ⟨-, hs⟩⟩
  · rw [hnone] at hn
    cases hn
  · rw [hs] at hn
    cases hn
    exact hr
  · rw [hs] at hn
    cases hn
    rwa [handles_modify]

theorem nodup_remove {r : Registry} (hr : r.handles.Nodup) (h : Handle) :
    (r.remove h).handles.Nodup :=
  ((vars_remove_sublist r h).map _).nodup hr

/-! ### Clean registries -/

/-- The handles are distinct, and the variables go by distinct identifiers. -/
structure Clean (r : Registry) : Prop where
  /-- No two variables share a handle. -/
  handles : r.handles.Nodup
  /-- Every name is an identifier. -/
  identifiers : ∀ v ∈ r.vars, isIdentifier v.resolved
  /-- A name tells its variable. -/
  apart : ∀ u ∈ r.vars, ∀ v ∈ r.vars, u.resolved = v.resolved → u.handle = v.handle

theorem clean_empty : empty.Clean := ⟨List.nodup_nil, by simp [empty], by simp [empty]⟩

theorem Clean.names_nodup {r : Registry} (hr : r.Clean) : r.names.Nodup :=
  List.Nodup.map_on (fun u hu v hv h => eq_of_handle_eq hr.handles hu hv (hr.apart u hu v hv h))
    (List.Nodup.of_map _ hr.handles)

/-- In a clean registry a handle stands for the name of its variable. -/
theorem Clean.lookup_eq {r : Registry} (hr : r.Clean) {v : Variable} (hv : v ∈ r.vars) :
    r.lookup (some v.handle) = some v.resolved := by
  obtain ⟨i, hi⟩ := List.mem_iff_getElem?.mp hv
  rw [lookup_of_getElem? hr.handles hi, sanitize_of_isIdentifier (hr.identifiers v hv)]

theorem Clean.resolve_eq {r : Registry} (hr : r.Clean) {v : Variable} (hv : v ∈ r.vars) :
    r.resolve (some v.handle) = v.resolved := by
  rw [resolve, hr.lookup_eq hv, Option.getD_some]

/-- A registry is clean if another one with the same handles and names is. -/
theorem Clean.congr {r r' : Registry} (hr : r.Clean)
    (h : r'.vars.map (fun v => (v.handle, v.resolved)) =
      r.vars.map fun v => (v.handle, v.resolved)) : r'.Clean := by
  have hmem : ∀ v ∈ r'.vars, ∃ u ∈ r.vars, u.handle = v.handle ∧ u.resolved = v.resolved := by
    intro v hv
    have hpair : (v.handle, v.resolved) ∈ r.vars.map fun v => (v.handle, v.resolved) :=
      h ▸ List.mem_map_of_mem hv
    obtain ⟨u, hu, heq⟩ := List.mem_map.mp hpair
    exact ⟨u, hu, congrArg Prod.fst heq, congrArg Prod.snd heq⟩
  refine ⟨?_, ?_, ?_⟩
  · have hfirst := congrArg (List.map Prod.fst) h
    rw [List.map_map, List.map_map] at hfirst
    have hhandles : r'.handles = r.handles := hfirst
    exact hhandles ▸ hr.handles
  · intro v hv
    obtain ⟨u, hu, -, hname⟩ := hmem v hv
    exact hname ▸ hr.identifiers u hu
  · intro v hv v' hv' hname
    obtain ⟨u, hu, hhandle, hres⟩ := hmem v hv
    obtain ⟨u', hu', hhandle', hres'⟩ := hmem v' hv'
    rw [← hhandle, ← hhandle']
    exact hr.apart u hu u' hu' (hres.trans (hname.trans hres'.symm))

/-- A variable under a new handle and a new identifier keeps a registry clean. -/
theorem Clean.push {r : Registry} (hr : r.Clean) {v : Variable} (hh : v.handle ∉ r.handles)
    (hid : isIdentifier v.resolved) (hn : v.resolved ∉ r.names) : (r.push v).Clean := by
  refine ⟨nodup_handles_push hr.handles hh, fun u hu => ?_, fun u hu w hw h => ?_⟩
  · rcases List.mem_append.mp hu with hu | hu
    · exact hr.identifiers u hu
    · rwa [List.mem_singleton.mp hu]
  · rcases List.mem_append.mp hu with hu | hu <;> rcases List.mem_append.mp hw with hw | hw
    · exact hr.apart u hu w hw h
    · rw [List.mem_singleton.mp hw] at h
      exact absurd (h ▸ List.mem_map_of_mem hu) hn
    · rw [List.mem_singleton.mp hu] at h
      exact absurd (h ▸ List.mem_map_of_mem hw) hn
    · rw [List.mem_singleton.mp hu, List.mem_singleton.mp hw]

theorem Clean.register {r : Registry} (hr : r.Clean) (name : String) :
    (r.register name).2.Clean := by
  rcases register_cases r name with ⟨v, -, h⟩ | ⟨hn, h⟩
  · rwa [h]
  · rw [h]
    have hmint : r.mint.2.Clean := ⟨hr.handles, hr.identifiers, hr.apart⟩
    exact hmint.push r.mint_not_mem (isIdentifier_sanitize _ _) hn

theorem Clean.bind {r : Registry} (hr : r.Clean) (name : String) : (r.bind name).2.Clean := by
  rcases bind_cases r name with ⟨v, -, h⟩ | h
  · rwa [h]
  · rw [h]
    exact hr.register name

theorem Clean.remove {r : Registry} (hr : r.Clean) (h : Handle) : (r.remove h).Clean := by
  have hsub := (vars_remove_sublist r h).subset
  exact ⟨nodup_remove hr.handles h, fun v hv => hr.identifiers v (hsub hv),
    fun u hu v hv => hr.apart u (hsub hu) v (hsub hv)⟩

theorem Clean.rename {r r' : Registry} (hr : r.Clean) {h h' : Handle} {name : String}
    (hn : r.rename h name = some (h', r')) : r'.Clean := by
  rcases rename_cases r h name with ⟨-, hnone⟩ | ⟨i, hi, ⟨v, -, -, hs⟩ | ⟨hholder, hs⟩⟩
  · rw [hnone] at hn
    cases hn
  · rw [hs] at hn
    cases hn
    exact hr
  · rw [hs] at hn
    cases hn
    have hcases : ∀ v ∈ r.vars.modify i fun v =>
          { v with declared := name, resolved := sanitize (some name) i },
        (v.handle = h ∧ v.resolved = sanitize (some name) i) ∨ (v ∈ r.vars ∧ v.handle ≠ h) :=
      fun v hv => mem_modify hr.handles hi hv
    refine ⟨by rw [handles_modify]; exact hr.handles, fun v hv => ?_, fun u hu v hv huv => ?_⟩
    · rcases hcases v hv with ⟨-, hres⟩ | ⟨hv, -⟩
      · rw [hres]
        exact isIdentifier_sanitize _ _
      · exact hr.identifiers v hv
    · -- nobody else goes by the new name
      rcases hcases u hu with ⟨huh, hures⟩ | ⟨hu, hune⟩ <;>
        rcases hcases v hv with ⟨hvh, hvres⟩ | ⟨hv, hvne⟩
      · rw [huh, hvh]
      · exact absurd (handle_eq_of_holder?_eq_none hholder hv (huv ▸ hures)) hvne
      · exact absurd (handle_eq_of_holder?_eq_none hholder hu (huv ▸ hvres)) hune
      · exact hr.apart u hu v hv huv

/-! ### What all changes keep -/

/-- A property that is kept by all that is done to the registry of a canvas. -/
structure Kept (I : Registry → Prop) : Prop where
  /-- A variable can be admitted by name. -/
  register : ∀ {r : Registry}, I r → ∀ name, I (r.register name).2
  /-- A name can be bound. -/
  bind : ∀ {r : Registry}, I r → ∀ name, I (r.bind name).2
  /-- A variable can be renamed. -/
  rename : ∀ {r r' : Registry} {h h' : Handle} {name : String},
    I r → r.rename h name = some (h', r') → I r'
  /-- A variable can be removed. -/
  remove : ∀ {r : Registry}, I r → ∀ h, I (r.remove h)

theorem kept_nodup : Kept fun r => r.handles.Nodup :=
  ⟨nodup_register, nodup_bind, fun hr hn => nodup_rename hr hn, nodup_remove⟩

theorem kept_clean : Kept Clean :=
  ⟨Clean.register, Clean.bind, fun hr hn => hr.rename hn, Clean.remove⟩

end Registry

end BlockProgram
