import BlockProgram.Proofs.Workspace.References

/-!
# What migration comes to

Migration takes the variables one after the other while it adds some and removes others. Which of
two that share an identifier is left depends on their order and on what is found at the time, but
what it comes to does not: the names at the end are the identifiers made of the names at the start,
each at its place, and each is the name of one variable. A variable that had its identifier for
itself is there as it was, nothing refers to a variable that is gone, and nothing is left to do.
-/

namespace BlockProgram

open Identifier

namespace Registry

/-- In a clean registry what a handle stands for is the name of a variable. -/
theorem Clean.mem_names_of_lookup {r : Registry} (hr : r.Clean) {h : Option Handle} {name : String}
    (hname : r.lookup h = some name) : name ∈ r.names := by
  simp only [lookup, Option.bind_eq_bind, Option.bind_eq_some_iff, Option.some.injEq] at hname
  obtain ⟨_, -, index, -, v, hv, rfl⟩ := hname
  have hmem := List.mem_of_getElem? hv
  rw [sanitize_of_isIdentifier (hr.identifiers v hmem)]
  exact List.mem_map_of_mem hmem

end Registry

namespace Migration

variable {r : Registry} {m : Migration} {rest : List (Variable × Nat)} {old v : Variable}
  {index : Nat}

/-! ### The variables after a step -/

/-- A step leaves all other variables where they are. -/
theorem Midway.mem_step_of_ne (h : Midway m.registry ((old, index) :: rest))
    (hv : v ∈ m.registry.vars) (hne : v.handle ≠ old.handle) :
    v ∈ (m.step old index).registry.vars := by
  rcases m.step_cases old index with ⟨-, -, hs⟩ | ⟨_, -, hs⟩ | ⟨-, -, hs⟩
  · rwa [hs]
  · rw [hs]
    exact (Registry.mem_remove_iff h.handles).mpr ⟨hv, hne⟩
  · rw [hs]
    exact (Registry.mem_remove_iff (Registry.nodup_handles_mint h.handles _ _)).mpr
      ⟨List.mem_append_left _ hv, hne⟩

/-- After a step there is the variable that goes by the identifier of the one whose turn it was, and
there are others that were there before. -/
theorem Midway.mem_step (h : Midway m.registry ((old, index) :: rest))
    (hv : v ∈ (m.step old index).registry.vars) :
    v.resolved = sanitize (some old.resolved) index ∨
      v ∈ m.registry.vars ∧ v.handle ≠ old.handle := by
  rcases m.step_cases old index with ⟨hname, -, hs⟩ | ⟨_, -, hs⟩ | ⟨-, -, hs⟩
  · rw [hs] at hv
    by_cases hvo : v.handle = old.handle
    · rw [Registry.eq_of_handle_eq h.handles hv h.old_mem hvo, hname]
      exact .inl rfl
    · exact .inr ⟨hv, hvo⟩
  · rw [hs] at hv
    exact .inr ((Registry.mem_remove_iff h.handles).mp hv)
  · rw [hs] at hv
    obtain ⟨hv, hne⟩ :=
      (Registry.mem_remove_iff (Registry.nodup_handles_mint h.handles _ _)).mp hv
    rcases List.mem_append.mp hv with hv | hv
    · exact .inr ⟨hv, hne⟩
    · rw [List.mem_singleton.mp hv]
      exact .inl rfl

/-! ### The names -/

/-- All names are among some: those of the variables that are not to come any more, and those that
the others will get. -/
structure Within (p : String → Prop) (m : Migration) (rest : List (Variable × Nat)) : Prop where
  /-- The registry is on its way. -/
  midway : Midway m.registry rest
  /-- The names that are settled. -/
  settled : ∀ v ∈ m.registry.vars, Settled rest v → p v.resolved
  /-- The names that are not. -/
  pending : ∀ e ∈ rest, p (sanitize (some e.1.resolved) e.2)

theorem Within.step {p : String → Prop} (h : Within p m ((old, index) :: rest)) :
    Within p (m.step old index) rest := by
  obtain ⟨hold, hrest⟩ := List.forall_mem_cons.mp h.pending
  refine ⟨h.midway.step, fun v hv hs => ?_, hrest⟩
  rcases h.midway.mem_step hv with hname | ⟨hv, hne⟩
  · rw [hname]
    exact hold
  · exact h.settled v hv (settled_cons.mpr ⟨hne.symm, hs⟩)

/-! ### A variable that has its name for itself -/

/-- A variable goes by a name that no other one has or will get. -/
structure Alone (v : Variable) (m : Migration) (rest : List (Variable × Nat)) : Prop where
  /-- The registry is on its way. -/
  midway : Midway m.registry rest
  /-- The variable is in it. -/
  mem : v ∈ m.registry.vars
  /-- Its name can stay. -/
  identifier : isIdentifier v.resolved
  /-- No other one has it. -/
  others : ∀ u ∈ m.registry.vars, u.resolved = v.resolved → u.handle = v.handle
  /-- No other one will get it. -/
  pending : ∀ e ∈ rest, e.1.handle ≠ v.handle → sanitize (some e.1.resolved) e.2 ≠ v.resolved

/-- When it is its turn nothing happens. -/
theorem Alone.step_eq (h : Alone v m ((v, index) :: rest)) : m.step v index = m := by
  have hname : sanitize (some v.resolved) index = v.resolved :=
    sanitize_of_isIdentifier h.identifier index
  rcases m.step_cases v index with ⟨-, -, hs⟩ | ⟨u, hu, -⟩ | ⟨hne, -, -⟩
  · exact hs
  · rw [hname] at hu
    obtain ⟨hmem, hres, hne⟩ := Registry.mem_of_holder? hu
    exact absurd (h.others u hmem hres) hne
  · exact absurd hname hne

theorem Alone.step (h : Alone v m ((old, index) :: rest)) : Alone v (m.step old index) rest := by
  obtain ⟨hold, hrest⟩ := List.forall_mem_cons.mp h.pending
  by_cases hvo : v.handle = old.handle
  · obtain rfl := Registry.eq_of_handle_eq h.midway.handles h.mem h.midway.old_mem hvo
    have hmidway := h.midway.step
    rw [h.step_eq] at hmidway ⊢
    exact ⟨hmidway, h.mem, h.identifier, h.others, hrest⟩
  · refine ⟨h.midway.step, h.midway.mem_step_of_ne h.mem hvo, h.identifier, fun u hu hname => ?_,
      hrest⟩
    rcases h.midway.mem_step hu with hu | ⟨hu, -⟩
    · exact absurd (hu.symm.trans hname) (hold (Ne.symm hvo))
    · exact h.others u hu hname

/-! ### The outcome -/

/-- What migration makes of a registry. -/
structure Outcome (r : Registry) (m : Migration) : Prop where
  /-- All names are identifiers. -/
  identifiers : ∀ name ∈ m.registry.names, isIdentifier name
  /-- No two variables go by one name. -/
  names : m.registry.names.Nodup
  /-- No two variables share a handle. -/
  handles : m.registry.handles.Nodup
  /-- The names are the identifiers made of the names there were, each at its place. -/
  made : ∀ name, name ∈ m.registry.names ↔
    ∃ i v, r.vars[i]? = some v ∧ sanitize (some v.resolved) i = name
  /-- A variable stays as it was if its name is an identifier that no other one had or would get. -/
  kept : ∀ i v, r.vars[i]? = some v → isIdentifier v.resolved →
    (∀ j u, r.vars[j]? = some u → j ≠ i →
      u.resolved ≠ v.resolved ∧ sanitize (some u.resolved) j ≠ v.resolved) →
    v ∈ m.registry.vars
  /-- No block refers to a variable that is gone. -/
  references : ∀ n ∈ m.nodes, ∀ h ∈ n.handles, r.declares h → m.registry.declares h
  /-- Another migration finds nothing to do. -/
  again : m.registry.migrate m.blocks = ⟨m.registry, m.blocks, 0⟩

/-- The names at the end are made of the names at the start. -/
theorem mem_names_migrate_iff (hr : r.handles.Nodup) (blocks : List Block) (name : String) :
    name ∈ (r.migrate blocks).registry.names ↔
      ∃ i v, r.vars[i]? = some v ∧ sanitize (some v.resolved) i = name := by
  constructor
  · intro hname
    obtain ⟨v, hv, rfl⟩ := List.mem_map.mp hname
    have hstart : Within (fun name => ∃ i v, r.vars[i]? = some v ∧
        sanitize (some v.resolved) i = name) ⟨r, blocks, 0⟩ r.vars.zipIdx := by
      refine ⟨midway_start hr, fun v hv hs => ?_, fun e he => ?_⟩
      · obtain ⟨i, hi⟩ := List.mem_iff_getElem?.mp hv
        exact absurd rfl (hs (v, i) (List.mk_mem_zipIdx_iff_getElem?.mpr hi))
      · exact ⟨e.2, e.1, List.mem_zipIdx_iff_getElem?.mp he, rfl⟩
    exact (run_of_step (fun h => h.step) hstart).settled v hv fun e he => absurd he List.not_mem_nil
  · rintro ⟨i, v, hv, rfl⟩
    obtain ⟨ρ, -, hlookup⟩ := Registry.lookup_migrate hr blocks
    have hdeclared : r.declares v.handle :=
      Registry.declares_iff.mpr (List.mem_map_of_mem (List.mem_of_getElem? hv))
    have hname := hlookup v.handle hdeclared
    rw [Registry.lookup_of_getElem? hr hv] at hname
    exact (Registry.clean_migrate hr blocks).mem_names_of_lookup hname

/-- A variable whose name is an identifier that no other one has or would get stays as it is. -/
theorem mem_migrate_of_alone (hr : r.handles.Nodup) (blocks : List Block) {i : Nat}
    (hv : r.vars[i]? = some v) (hid : isIdentifier v.resolved)
    (hothers : ∀ j u, r.vars[j]? = some u → j ≠ i →
      u.resolved ≠ v.resolved ∧ sanitize (some u.resolved) j ≠ v.resolved) :
    v ∈ (r.migrate blocks).registry.vars := by
  have hstart : Alone v ⟨r, blocks, 0⟩ r.vars.zipIdx := by
    refine ⟨midway_start hr, List.mem_of_getElem? hv, hid, fun u hu hname => ?_,
      fun e he hne => ?_⟩
    · obtain ⟨j, hj⟩ := List.mem_iff_getElem?.mp hu
      by_cases hji : j = i
      · subst hji
        rw [Option.some.inj (hj.symm.trans hv)]
      · exact absurd hname (hothers j u hj hji).1
    · have hj := List.mem_zipIdx_iff_getElem?.mp he
      refine (hothers e.2 e.1 hj ?_).2
      rintro hei
      rw [hei] at hj
      exact hne (by rw [Option.some.inj (hj.symm.trans hv)])
  exact (run_of_step (fun h => h.step) hstart).mem

/-- No block refers to a variable that was there at the start and is gone. -/
theorem declares_of_mem_handles (blocks : List Block) {n : Node}
    (hn : n ∈ (r.migrate blocks).nodes) {h : Handle} (hh : h ∈ n.handles) (hdeclared : r.declares h) :
    (r.migrate blocks).registry.declares h := by
  have hstart : r.Covers (fun h => h ∉ r.handles) (Migration.nodes ⟨r, blocks, 0⟩) :=
    fun _ _ h _ => em (h ∈ r.handles)
  have hend : (r.migrate blocks).registry.Covers _ (r.migrate blocks).nodes :=
    covers_run (m := ⟨r, blocks, 0⟩) hstart _
  rw [Registry.declares_iff] at hdeclared ⊢
  exact (hend n hn h hh).resolve_right fun hnot => hnot hdeclared

end Migration

/-- **What migration comes to.** Of every registry that has been built by the operations of
registries, and with any blocks, migration makes one whose variables go by distinct identifiers and
have distinct handles. The names are the identifiers made of the names there were. A variable with
an identifier for itself stays, no block is left with a reference to a variable that is gone, and
another migration changes nothing. -/
theorem Registry.outcome_migrate {r : Registry} (hr : r.Built) (blocks : List Block) :
    Migration.Outcome r (r.migrate blocks) := by
  have hnodup := hr.nodup_handles
  have hclean := clean_migrate hnodup blocks
  exact {
    identifiers := List.forall_mem_map.mpr hclean.identifiers
    names := hclean.names_nodup
    handles := hclean.handles
    made := Migration.mem_names_migrate_iff hnodup blocks
    kept := fun _ _ hv hid hothers => Migration.mem_migrate_of_alone hnodup blocks hv hid hothers
    references := fun _ hn _ hh => Migration.declares_of_mem_handles blocks hn hh
    again := hclean.migrate_eq _
  }

/-- The first of five variables has no name and gets the one that the fourth goes by, the second and
the third become one, and the last stays as it is. -/
theorem Registry.outcome_migrate_merged :
    let r := ((((Registry.empty.declare ⟨"a"⟩ "").declare ⟨"b"⟩ "2 x").declare ⟨"c"⟩ "_2_x").declare
      ⟨"d"⟩ "var1").declare ⟨"e"⟩ "y"
    let get (h : String) : Block := ⟨⟨⟨"g"⟩, .variableGet, ⟨[("VAR", .var ⟨h⟩)]⟩⟩, .nil⟩
    let m := r.migrate [get "a", get "b", get "nowhere"]
    r.Built ∧ Migration.Outcome r m ∧ m.registry.names = ["_2_x", "var1", "y"] ∧
      m.blocks = [get "d", get "c", get "nowhere"] := by
  intro r get m
  have hbuilt : r.Built :=
    .declare (.declare (.declare (.declare (.declare .empty _ _) _ _) _ _) _ _) _ _
  exact ⟨hbuilt, outcome_migrate hbuilt _, by decide, by decide⟩

end BlockProgram
