import BlockProgram.Variable.Migration
import BlockProgram.Proofs.Variable.Registry

/-!
# What migration leaves behind

Migration goes through the variables that were there at the start while it adds and removes
variables. Midway, the variables that are still to come are all in the registry, and those that
are not to come any more go by distinct identifiers. Each step keeps this, so that at the end
the registry is clean, whatever names were in it.

A registry that has been built by its own operations has distinct handles, which is all that
migration asks for.
-/

namespace BlockProgram

open Identifier

namespace Migration

/-- The three things that a step can do: leave the variable, merge it into the holder of its
identifier, or put a new variable in its place. -/
theorem step_cases (m : Migration) (old : Variable) (index : Nat) :
    (sanitize (some old.resolved) index = old.resolved ∧
      m.registry.holder? old.handle (sanitize (some old.resolved) index) = none ∧
      m.step old index = m) ∨
    (∃ v, m.registry.holder? old.handle (sanitize (some old.resolved) index) = some v ∧
      m.step old index = ⟨m.registry.remove old.handle,
        m.blocks.map (Block.redirect old.handle v.handle), m.replaced + 1⟩) ∨
    (sanitize (some old.resolved) index ≠ old.resolved ∧
      m.registry.holder? old.handle (sanitize (some old.resolved) index) = none ∧
      m.step old index = ⟨(m.registry.mint.2.push ⟨m.registry.mint.1, old.declared,
          sanitize (some old.resolved) index⟩).remove old.handle,
        m.blocks.map (Block.redirect old.handle m.registry.mint.1), m.replaced + 1⟩) := by
  cases hh : m.registry.holder? old.handle (sanitize (some old.resolved) index) with
  | some v => exact .inr (.inl ⟨v, rfl, by simp [step, stays, successor, hh]⟩)
  | none =>
    by_cases hs : sanitize (some old.resolved) index = old.resolved
    · rw [hs] at hh
      exact .inl ⟨hs, rfl, by simp [step, stays, hs, hh]⟩
    · exact .inr (.inr ⟨hs, rfl, by simp [step, stays, successor, hs, hh]⟩)

/-- A variable that is not to come any more. -/
def Settled (rest : List (Variable × Nat)) (v : Variable) : Prop :=
  ∀ e ∈ rest, e.1.handle ≠ v.handle

/-- What holds of the registry while some variables are still to come. -/
structure Midway (r : Registry) (rest : List (Variable × Nat)) : Prop where
  /-- No two variables share a handle. -/
  handles : r.handles.Nodup
  /-- The variables to come are still there. -/
  pending : ∀ e ∈ rest, e.1 ∈ r.vars
  /-- Each comes once. -/
  once : (rest.map fun e => e.1.handle).Nodup
  /-- The others go by identifiers. -/
  identifiers : ∀ v ∈ r.vars, Settled rest v → isIdentifier v.resolved
  /-- Among the others a name tells its variable. -/
  apart : ∀ u ∈ r.vars, ∀ v ∈ r.vars, Settled rest u → Settled rest v →
    u.resolved = v.resolved → u.handle = v.handle

variable {rest : List (Variable × Nat)} {old : Variable} {index : Nat}

theorem settled_cons {e : Variable × Nat} {v : Variable} :
    Settled (e :: rest) v ↔ e.1.handle ≠ v.handle ∧ Settled rest v := List.forall_mem_cons

theorem Midway.old_mem {r : Registry} (h : Midway r ((old, index) :: rest)) : old ∈ r.vars :=
  h.pending _ List.mem_cons_self

/-- The variable whose turn it is does not come again. -/
theorem Midway.ne_old {r : Registry} (h : Midway r ((old, index) :: rest)) :
    ∀ e ∈ rest, e.1.handle ≠ old.handle := by
  intro e he heq
  exact (List.nodup_cons.mp h.once).1 (List.mem_map.mpr ⟨e, he, heq⟩)

/-- A variable that goes by an identifier of its own can be left where it is. -/
theorem Midway.stay {r : Registry} (h : Midway r ((old, index) :: rest))
    (hname : sanitize (some old.resolved) index = old.resolved)
    (hholder : r.holder? old.handle (sanitize (some old.resolved) index) = none) :
    Midway r rest := by
  rw [hname] at hholder
  -- whoever is settled now is the variable itself or was settled before
  have hcases : ∀ v ∈ r.vars, Settled rest v → v = old ∨ Settled ((old, index) :: rest) v := by
    intro v hv hs
    by_cases hvo : old.handle = v.handle
    · exact .inl (Registry.eq_of_handle_eq h.handles hv h.old_mem hvo.symm)
    · exact .inr (settled_cons.mpr ⟨hvo, hs⟩)
  refine ⟨h.handles, fun e he => h.pending e (List.mem_cons_of_mem _ he),
    (List.nodup_cons.mp h.once).2, fun v hv hs => ?_, fun u hu v hv hsu hsv huv => ?_⟩
  · rcases hcases v hv hs with rfl | hs
    · rw [← hname]
      exact isIdentifier_sanitize _ _
    · exact h.identifiers v hv hs
  · rcases hcases u hu hsu with rfl | hsu
    · exact (Registry.handle_eq_of_holder?_eq_none hholder hv huv.symm).symm
    · rcases hcases v hv hsv with rfl | hsv
      · exact Registry.handle_eq_of_holder?_eq_none hholder hu huv
      · exact h.apart u hu v hv hsu hsv huv

/-- A variable whose turn it is can be removed. -/
theorem Midway.remove {r : Registry} (h : Midway r ((old, index) :: rest)) :
    Midway (r.remove old.handle) rest := by
  have hmem : ∀ v, v ∈ (r.remove old.handle).vars ↔ v ∈ r.vars ∧ v.handle ≠ old.handle :=
    fun v => Registry.mem_remove_iff h.handles
  have hsettled : ∀ v ∈ (r.remove old.handle).vars, Settled rest v →
      Settled ((old, index) :: rest) v :=
    fun v hv hs => settled_cons.mpr ⟨((hmem v).mp hv).2.symm, hs⟩
  refine ⟨Registry.nodup_remove h.handles _, fun e he => ?_, (List.nodup_cons.mp h.once).2,
    fun v hv hs => h.identifiers v ((hmem v).mp hv).1 (hsettled v hv hs),
    fun u hu v hv hsu hsv => h.apart u ((hmem u).mp hu).1 v ((hmem v).mp hv).1
      (hsettled u hu hsu) (hsettled v hv hsv)⟩
  exact (hmem e.1).mpr ⟨h.pending e (List.mem_cons_of_mem _ he), h.ne_old e he⟩

/-- A new variable can be put in the place of the one whose turn it is, under an identifier
that nobody else goes by. -/
theorem Midway.replace {r : Registry} (h : Midway r ((old, index) :: rest)) {v : Variable}
    (hv : v.handle ∉ r.handles) (hid : isIdentifier v.resolved)
    (hholder : r.holder? old.handle v.resolved = none) :
    Midway ((r.push v).remove old.handle) rest := by
  have hnodup := Registry.nodup_handles_push h.handles hv
  have hmem : ∀ u, u ∈ ((r.push v).remove old.handle).vars →
      u = v ∨ u ∈ (r.remove old.handle).vars := by
    intro u hu
    obtain ⟨hu, hne⟩ := (Registry.mem_remove_iff hnodup).mp hu
    rcases List.mem_append.mp hu with hu | hu
    · exact .inr ((Registry.mem_remove_iff h.handles).mpr ⟨hu, hne⟩)
    · exact .inl (List.mem_singleton.mp hu)
  have hother : ∀ u ∈ (r.remove old.handle).vars, u.resolved ≠ v.resolved := by
    intro u hu huv
    obtain ⟨hu, hne⟩ := (Registry.mem_remove_iff h.handles).mp hu
    exact hne (Registry.handle_eq_of_holder?_eq_none hholder hu huv)
  have hrest := h.remove
  refine ⟨Registry.nodup_remove hnodup _, fun e he => ?_, hrest.once, fun u hu hs => ?_,
    fun u hu w hw hsu hsw huw => ?_⟩
  · obtain ⟨he, hne⟩ := (Registry.mem_remove_iff h.handles).mp (hrest.pending e he)
    exact (Registry.mem_remove_iff hnodup).mpr ⟨List.mem_append_left _ he, hne⟩
  · rcases hmem u hu with rfl | hu
    · exact hid
    · exact hrest.identifiers u hu hs
  · rcases hmem u hu with hu | hu <;> rcases hmem w hw with hw | hw
    · rw [hu, hw]
    · exact absurd (hu ▸ huw.symm) (hother w hw)
    · exact absurd (hw ▸ huw) (hother u hu)
    · exact hrest.apart u hu w hw hsu hsw huw

/-- One step settles the variable whose turn it is. -/
theorem Midway.step {m : Migration} (h : Midway m.registry ((old, index) :: rest)) :
    Midway (m.step old index).registry rest := by
  rcases m.step_cases old index with ⟨hname, hholder, hs⟩ | ⟨v, -, hs⟩ | ⟨-, hholder, hs⟩
  · rw [hs]
    exact h.stay hname hholder
  · rw [hs]
    exact h.remove
  · rw [hs]
    have hmint : Midway m.registry.mint.2 ((old, index) :: rest) :=
      ⟨h.handles, h.pending, h.once, h.identifiers, h.apart⟩
    exact hmint.replace m.registry.mint_not_mem (isIdentifier_sanitize _ _) hholder

/-- What each step keeps for the variables to come is there when all of them have had their turn. -/
theorem run_of_step {I : Migration → List (Variable × Nat) → Prop}
    (hstep : ∀ {m : Migration} {old : Variable} {index : Nat} {rest : List (Variable × Nat)},
      I m ((old, index) :: rest) → I (m.step old index) rest)
    {m : Migration} (h : I m rest) :
    I (rest.foldl (fun m (old, index) => m.step old index) m) [] := by
  induction rest generalizing m with
  | nil => exact h
  | cons e rest ih => exact ih (hstep h)

/-- At the start all variables are still to come. -/
theorem midway_start {r : Registry} (hr : r.handles.Nodup) : Midway r r.vars.zipIdx := by
  have hfirst : r.vars.zipIdx.map (fun e => e.1.handle) = r.handles := by
    rw [Registry.handles, ← List.zipIdx_map_fst 0 r.vars, List.map_map, List.zipIdx_map_fst]
    rfl
  have hnone : ∀ v ∈ r.vars, ¬ Settled r.vars.zipIdx v := by
    intro v hv hs
    have : v.handle ∈ r.vars.zipIdx.map fun e => e.1.handle :=
      hfirst ▸ List.mem_map_of_mem hv
    obtain ⟨e, he, heq⟩ := List.mem_map.mp this
    exact hs e he heq
  exact ⟨hr, fun e he => List.fst_mem_of_mem_zipIdx he, hfirst ▸ hr,
    fun v hv hs => absurd hs (hnone v hv), fun u hu v hv hs => absurd hs (hnone u hu)⟩

end Migration

namespace Registry

/-- **Migration makes a registry clean**, whatever the names in it. -/
theorem clean_migrate {r : Registry} (hr : r.handles.Nodup) (blocks : List Block) :
    (r.migrate blocks).registry.Clean := by
  have hend : Migration.Midway (r.migrate blocks).registry [] :=
    Migration.run_of_step (I := fun m rest => Migration.Midway m.registry rest)
      (fun h => h.step) (m := ⟨r, blocks, 0⟩) (Migration.midway_start hr)
  have hall : ∀ v : Variable, Migration.Settled [] v := fun v e he => absurd he List.not_mem_nil
  exact ⟨hend.handles, fun v hv => hend.identifiers v hv (hall v),
    fun u hu v hv => hend.apart u hu v hv (hall u) (hall v)⟩

/-- **A clean registry is left as it is by migration**, and so are the blocks. -/
theorem Clean.migrate_eq {r : Registry} (hr : r.Clean) (blocks : List Block) :
    r.migrate blocks = ⟨r, blocks, 0⟩ := by
  have hstep : ∀ e ∈ r.vars.zipIdx, Migration.step ⟨r, blocks, 0⟩ e.1 e.2 = ⟨r, blocks, 0⟩ := by
    intro e he
    have hold : e.1 ∈ r.vars := List.fst_mem_of_mem_zipIdx he
    have hname := sanitize_of_isIdentifier (hr.identifiers e.1 hold) e.2
    have hholder : r.holder? e.1.handle e.1.resolved = none := by
      cases hv : r.holder? e.1.handle e.1.resolved with
      | none => rfl
      | some v =>
        obtain ⟨hmem, hres, hne⟩ := mem_of_holder? hv
        exact absurd (hr.apart v hmem e.1 hold hres) hne
    simp [Migration.step, Migration.stays, hname, hholder]
  rw [migrate]
  generalize r.vars.zipIdx = es at hstep
  induction es with
  | nil => rfl
  | cons e es ih =>
    obtain ⟨he, hes⟩ := List.forall_mem_cons.mp hstep
    show es.foldl _ (Migration.step ⟨r, blocks, 0⟩ e.1 e.2) = _
    rw [he]
    exact ih hes

/-- A registry that has been built by the operations of registries. -/
inductive Built : Registry → Prop where
  /-- None has been done yet. -/
  | empty : Built .empty
  /-- A variable was admitted by name. -/
  | register {r : Registry} (hr : Built r) (name : String) : Built (r.register name).2
  /-- A name was bound. -/
  | bind {r : Registry} (hr : Built r) (name : String) : Built (r.bind name).2
  /-- A variable was declared. -/
  | declare {r : Registry} (hr : Built r) (h : Handle) (name : String) : Built (r.declare h name)
  /-- A variable was renamed. -/
  | rename {r r' : Registry} (hr : Built r) {h h' : Handle} {name : String}
      (hn : r.rename h name = some (h', r')) : Built r'
  /-- A variable was removed. -/
  | remove {r : Registry} (hr : Built r) (h : Handle) : Built (r.remove h)
  /-- The names were migrated. -/
  | migrate {r : Registry} (hr : Built r) (blocks : List Block) :
      Built (r.migrate blocks).registry

/-- A registry that has been built by the operations of registries has distinct handles. -/
theorem Built.nodup_handles {r : Registry} (h : Built r) : r.handles.Nodup := by
  induction h with
  | empty => exact List.nodup_nil
  | register _ name ih => exact nodup_register ih name
  | bind _ name ih => exact nodup_bind ih name
  | declare _ h name ih => exact nodup_declare ih h name
  | rename _ hn ih => exact nodup_rename ih hn
  | remove _ h ih => exact nodup_remove ih h
  | migrate _ blocks ih => exact (clean_migrate ih blocks).handles

end Registry

end BlockProgram
