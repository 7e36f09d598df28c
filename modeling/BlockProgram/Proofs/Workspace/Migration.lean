import BlockProgram.Proofs.Code.Handles
import BlockProgram.Proofs.Workspace.Edit

/-!
# Migration keeps the program

Before migration a handle stands for the identifier made of the name of its variable at its place,
afterwards for the name of the variable that has taken its place. Migration merges variables into
others that are still to come, makes up handles and removes variables, so that places shift; but
midway every handle that was declared at the start has a variable, and that variable will go by
the identifier that the handle stood for. So if every handle on a canvas is declared the program
does not change, and all that changes on the canvas is handles.
-/

namespace BlockProgram

open Identifier

namespace Migration

variable {r : Registry} {blocks : List Block} {m : Migration} {rest : List (Variable × Nat)}
  {old : Variable} {index : Nat} {ρ : Handle → Handle}

/-- The name that a variable will go by in the end: one that is still to come by the identifier
made of its name at its place, any other as it does already. -/
structure GoesBy (rest : List (Variable × Nat)) (v : Variable) (name : String) : Prop where
  /-- If it is still to come. -/
  pending : ∀ i, (v, i) ∈ rest → sanitize (some v.resolved) i = name
  /-- If it is not. -/
  settled : Settled rest v → v.resolved = name

/-- A variable that goes by an identifier keeps it, still to come or not. -/
theorem goesBy_of_isIdentifier {v : Variable} (h : isIdentifier v.resolved) :
    GoesBy rest v v.resolved :=
  ⟨fun i _ => sanitize_of_isIdentifier h i, fun _ => rfl⟩

/-- The turn of one variable makes no difference to another. -/
theorem GoesBy.tail {v : Variable} {name : String} (h : GoesBy ((old, index) :: rest) v name)
    (hne : v.handle ≠ old.handle) : GoesBy rest v name :=
  ⟨fun i hi => h.pending i (List.mem_cons_of_mem _ hi),
    fun hs => h.settled (settled_cons.mpr ⟨hne.symm, hs⟩)⟩

/-- What has been done to blocks and registry when some variables are still to come: handles were
replaced, and the replacements will stand for what the handles stood for at the start. -/
structure Faithful (r : Registry) (blocks : List Block) (m : Migration)
    (rest : List (Variable × Nat)) (ρ : Handle → Handle) : Prop where
  /-- The registry is on its way. -/
  midway : Midway m.registry rest
  /-- Only handles were replaced in the blocks. -/
  blocks : m.blocks = blocks.map (Block.map (Node.mapHandle ρ))
  /-- The replacements stand for what they should. -/
  names : ∀ h name, r.lookup (some h) = some name →
    ∃ v ∈ m.registry.vars, v.handle = ρ h ∧ GoesBy rest v name

/-- At the start nothing has been replaced. -/
theorem faithful_start (hr : r.handles.Nodup) (blocks : List Block) :
    Faithful r blocks ⟨r, blocks, 0⟩ r.vars.zipIdx fun h => h := by
  refine ⟨midway_start hr, by rw [Block.map_mapHandle_id, List.map_id'], fun h name hname => ?_⟩
  obtain ⟨i, hi⟩ : ∃ i, r.position? h = some i := by
    cases hp : r.position? h with
    | none => simp [Registry.lookup, hp] at hname
    | some i => exact ⟨i, rfl⟩
  obtain ⟨v, hv, rfl⟩ := Registry.position?_eq_some hi
  have hvname := Registry.lookup_of_getElem? hr hv
  rw [hname] at hvname
  have hmem : (v, i) ∈ r.vars.zipIdx := List.mk_mem_zipIdx_iff_getElem?.mpr hv
  refine ⟨v, List.mem_of_getElem? hv, rfl, fun j hj => ?_, fun hs => absurd rfl (hs _ hmem)⟩
  have hj : r.position? v.handle = some j :=
    Registry.position?_of_getElem? hr (List.mk_mem_zipIdx_iff_getElem?.mp hj)
  obtain rfl : i = j := Option.some.inj (hi.symm.trans hj)
  exact (Option.some.inj hvname).symm

/-- The variable whose turn it is stands for the identifier made of its name. -/
theorem Faithful.name_eq (h : Faithful r blocks m ((old, index) :: rest) ρ) {v : Variable}
    (hv : v ∈ m.registry.vars) (hvh : v.handle = old.handle) {name : String}
    (hname : GoesBy ((old, index) :: rest) v name) : sanitize (some old.resolved) index = name := by
  obtain rfl := Registry.eq_of_handle_eq h.midway.handles hv h.midway.old_mem hvh
  exact hname.pending index List.mem_cons_self

/-- A variable that stays where it is keeps its name. -/
theorem Faithful.stay (h : Faithful r blocks m ((old, index) :: rest) ρ)
    (hname : sanitize (some old.resolved) index = old.resolved)
    (hmidway : Midway m.registry rest) : Faithful r blocks m rest ρ := by
  refine ⟨hmidway, h.blocks, fun g name hg => ?_⟩
  obtain ⟨v, hv, hvg, hgoes⟩ := h.names g name hg
  refine ⟨v, hv, hvg, ?_⟩
  by_cases hvo : v.handle = old.handle
  · have hold := h.name_eq hv hvo hgoes
    obtain rfl := Registry.eq_of_handle_eq h.midway.handles hv h.midway.old_mem hvo
    rw [← hold, hname]
    refine goesBy_of_isIdentifier ?_
    rw [← hname]
    exact isIdentifier_sanitize _ _
  · exact hgoes.tail hvo

/-- A variable can be replaced by one that goes by its identifier, whether that one was there
before or is new. -/
theorem Faithful.replace (h : Faithful r blocks m ((old, index) :: rest) ρ) {r' : Registry}
    (hmidway : Midway r' rest) {v : Variable} (hv : v ∈ r'.vars)
    (hvname : v.resolved = sanitize (some old.resolved) index)
    (hothers : ∀ u ∈ m.registry.vars, u.handle ≠ old.handle → u ∈ r'.vars) (replaced : Nat) :
    Faithful r blocks
      ⟨r', m.blocks.map (Block.redirect old.handle v.handle), replaced⟩ rest
      fun g => if ρ g = old.handle then v.handle else ρ g := by
  refine ⟨hmidway, ?_, fun g name hg => ?_⟩
  · have hredirect : Block.redirect old.handle v.handle =
        Block.map (Node.mapHandle fun g => if g = old.handle then v.handle else g) := rfl
    rw [h.blocks, hredirect, List.map_map]
    refine List.map_congr_left fun b _ => ?_
    simp only [Function.comp, Block.map_map, Node.mapHandle_mapHandle]
  · obtain ⟨u, hu, hug, hgoes⟩ := h.names g name hg
    by_cases huo : u.handle = old.handle
    · have hname := h.name_eq hu huo hgoes
      refine ⟨v, hv, by rw [if_pos (hug ▸ huo)], ?_⟩
      rw [← hname, ← hvname]
      refine goesBy_of_isIdentifier ?_
      rw [hvname]
      exact isIdentifier_sanitize _ _
    · exact ⟨u, hothers u hu huo, by rw [if_neg (hug ▸ huo), hug], hgoes.tail huo⟩

/-- One step replaces at most the handle whose turn it is. -/
theorem Faithful.step (h : Faithful r blocks m ((old, index) :: rest) ρ) :
    ∃ ρ', Faithful r blocks (m.step old index) rest ρ' := by
  have hmidway := h.midway.step
  rcases m.step_cases old index with ⟨hname, -, hs⟩ | ⟨v, hholder, hs⟩ | ⟨-, -, hs⟩
  · rw [hs] at hmidway ⊢
    exact ⟨ρ, h.stay hname hmidway⟩
  · rw [hs] at hmidway ⊢
    obtain ⟨hv, hvname, hne⟩ := Registry.mem_of_holder? hholder
    have hmem : ∀ u ∈ m.registry.vars, u.handle ≠ old.handle →
        u ∈ (m.registry.remove old.handle).vars :=
      fun u hu hne => (Registry.mem_remove_iff h.midway.handles).mpr ⟨hu, hne⟩
    exact ⟨_, h.replace hmidway (hmem v hv hne) hvname hmem _⟩
  · rw [hs] at hmidway ⊢
    let v : Variable := ⟨m.registry.mint.1, old.declared, sanitize (some old.resolved) index⟩
    have hnew : v.handle ∉ m.registry.handles := m.registry.mint_not_mem
    have hnodup : (m.registry.mint.2.push v).handles.Nodup :=
      Registry.nodup_handles_mint h.midway.handles _ _
    have hmem : ∀ u ∈ m.registry.vars ++ [v], u.handle ≠ old.handle →
        u ∈ ((m.registry.mint.2.push v).remove old.handle).vars :=
      fun u hu hne => (Registry.mem_remove_iff hnodup).mpr ⟨hu, hne⟩
    have hne : v.handle ≠ old.handle :=
      fun heq => hnew (heq ▸ Registry.mem_handles.mpr ⟨old, h.midway.old_mem, rfl⟩)
    exact ⟨_, h.replace hmidway (hmem v (by simp) hne) rfl
      (fun u hu => hmem u (List.mem_append_left _ hu)) _⟩

end Migration

/-- **Migration replaces handles by others that stand for the same.** -/
theorem Registry.lookup_migrate {r : Registry} (hr : r.handles.Nodup) (blocks : List Block) :
    ∃ ρ : Handle → Handle,
      (r.migrate blocks).blocks = blocks.map (Block.map (Node.mapHandle ρ)) ∧
      ∀ h, r.declares h → (r.migrate blocks).registry.lookup (some (ρ h)) = r.lookup (some h) := by
  obtain ⟨ρ, h⟩ := Migration.run_of_step
    (I := fun m rest => ∃ ρ, Migration.Faithful r blocks m rest ρ) (fun ⟨_, h⟩ => h.step)
    ⟨_, Migration.faithful_start hr blocks⟩
  refine ⟨ρ, h.blocks, fun g hg => ?_⟩
  obtain ⟨u, hu, rfl⟩ := mem_handles.mp (declares_iff.mp hg)
  obtain ⟨i, hi⟩ := List.mem_iff_getElem?.mp hu
  have hname := lookup_of_getElem? hr hi
  obtain ⟨v, hv, hvh, hgoes⟩ := h.names _ _ hname
  have hres := hgoes.settled fun e he => absurd he List.not_mem_nil
  rw [hname, ← hvh, ← hres]
  exact (clean_migrate hr blocks).lookup_eq hv

/-- Whether kinds are named by tags is a matter of kinds. -/
theorem tagged_of_kinds {ns ms : List Node} (h : ns.map Node.kind ⊆ ms.map Node.kind)
    (hm : ∀ m ∈ ms, m.Tagged) : ∀ n ∈ ns, n.Tagged := by
  intro n hn
  obtain ⟨m, hmem, hkind⟩ := List.mem_map.mp (h (List.mem_map_of_mem hn))
  obtain ⟨tag, htag⟩ := hm m hmem
  exact ⟨tag, hkind.symm.trans htag⟩

/-- Putting other handles into the settings changes no kind. -/
theorem kinds_mapHandle (ρ : Handle → Handle) (top : List TopBlock) :
    (topNodes (top.map (TopBlock.mapHandle ρ))).map Node.kind = (topNodes top).map Node.kind := by
  induction top with
  | nil => rfl
  | cons t ts ih =>
    rw [List.map_cons, topNodes_cons, topNodes_cons, List.map_append, List.map_append, ih,
      TopBlock.mapHandle, Block.nodes_map, List.map_map]
    rfl

namespace Workspace

/-- Migration puts other handles into the settings of the chains. -/
theorem top_migrate {w : Workspace} {ρ : Handle → Handle}
    (h : (w.registry.migrate (w.top.map TopBlock.block)).blocks =
      (w.top.map TopBlock.block).map (Block.map (Node.mapHandle ρ))) :
    w.migrate.2.top = w.top.map (TopBlock.mapHandle ρ) := by
  show (w.top.zip _).map _ = _
  rw [h, List.map_map, List.zip_map_right, List.map_map]
  induction w.top with
  | nil => rfl
  | cons t ts ih => simp only [List.zip_cons_cons, List.map_cons, ih]; rfl

theorem tagged_migrate {w : Workspace} (ht : ∀ n ∈ w.nodes, n.Tagged) :
    ∀ n ∈ w.migrate.2.nodes, n.Tagged := by
  obtain ⟨ρ, hρ⟩ := exists_blocks_migrate w.registry (w.top.map TopBlock.block)
  rw [nodes, top_migrate hρ]
  exact tagged_of_kinds (List.Perm.of_eq (kinds_mapHandle ρ w.top)).subset ht

/-- A canvas with a clean registry is left as it is by migration. -/
theorem migrate_of_clean {w : Workspace} (hw : w.registry.Clean) : w.migrate.2 = w := by
  have hmigrate := hw.migrate_eq (w.top.map TopBlock.block)
  have htop : w.migrate.2.top = w.top.map (TopBlock.mapHandle fun h => h) :=
    top_migrate (by rw [hmigrate, Block.map_mapHandle_id, List.map_id'])
  have hsame : TopBlock.mapHandle (fun h => h) = fun t => t := by
    funext t
    rw [TopBlock.mapHandle, Block.map_mapHandle_id]
  rw [hsame, List.map_id'] at htop
  have hregistry : w.migrate.2.registry = w.registry := congrArg Migration.registry hmigrate
  calc w.migrate.2 = ⟨w.migrate.2.top, w.migrate.2.registry, w.minted⟩ := rfl
    _ = w := by rw [htop, hregistry]

/-- **Migration keeps the program.** If every handle on a canvas is declared, then the text of the
program is the same after migration, in either order, and on the canvas only handles have been
replaced. Names may be empty, no identifiers, or the same, and identities may come twice. -/
theorem program_migrate {w : Workspace} (hr : w.registry.Built) (hw : w.Closed) :
    (∀ order, w.migrate.2.program order = w.program order) ∧
    ∃ ρ : Handle → Handle, w.migrate.2.top = w.top.map (TopBlock.mapHandle ρ) := by
  obtain ⟨ρ, hblocks, hlookup⟩ :=
    Registry.lookup_migrate hr.nodup_handles (w.top.map TopBlock.block)
  have htop := top_migrate hblocks
  refine ⟨fun order => ?_, ρ, htop⟩
  rw [program, program, htop]
  refine Program.text_mapHandle (fun t ht n hn h hh => hlookup h ?_) order
  have hwalk : n ∈ w.walk.map Block.node := by
    rw [map_node_walk]
    exact List.mem_flatMap.mpr ⟨t, ht, hn⟩
  obtain ⟨b, hb, rfl⟩ := List.mem_map.mp hwalk
  exact hw b hb h hh

/-- Of four variables the first has no name and gets the one that the last goes by, and the other
two become one. Two blocks have one identity. -/
theorem program_migrate_merged :
    let r := (((Registry.empty.declare ⟨"a"⟩ "").declare ⟨"b"⟩ "2 x").declare ⟨"c"⟩ "_2_x").declare
      ⟨"d"⟩ "var1"
    let get (h : String) : Node := ⟨⟨"g"⟩, .variableGet, ⟨[("VAR", .var ⟨h⟩)]⟩⟩
    let set (h : String) : Node := ⟨⟨"s"⟩, .variableSet, ⟨[("VAR", .var ⟨h⟩)]⟩⟩
    let w : Workspace := .ofParts
      [⟨⟨set "a", .cons (.input "VALUE") (get "b") .nil .nil⟩, none⟩,
        ⟨⟨set "d", .cons (.input "VALUE") (get "c") .nil .nil⟩,
          some ⟨.zero false, .zero false⟩⟩] r
    w.Closed ∧ (∀ order, w.migrate.2.program order = w.program order) ∧
      ∃ ρ : Handle → Handle, w.migrate.2.top = w.top.map (TopBlock.mapHandle ρ) := by
  intro r get set w
  have hbuilt : r.Built := .declare (.declare (.declare (.declare .empty _ _) _ _) _ _) _ _
  have hclosed : w.Closed := by
    unfold Closed
    decide
  exact ⟨hclosed, program_migrate hbuilt hclosed⟩

end Workspace

end BlockProgram
