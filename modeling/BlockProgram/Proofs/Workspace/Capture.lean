import BlockProgram.Proofs.Workspace.References

/-!
# Handles that are made up

A handle that is made up is not declared, but blocks may hold handles that are not declared either.
Handles are made up by number, and the numbers only go up. So a handle on the canvas can be met
again only if it is not declared and its number is still ahead. On a canvas without such handles
no handle that is made up is in use, whatever is called, and creating a variable leaves the program
as it is. On any other canvas creating variables, one after the other, ends with one whose
handle was there before.

While names are migrated a handle may be made up that has just been replaced. It is not in
use at that moment.
-/

namespace BlockProgram

namespace Registry

/-- The number of a handle is ahead of those that were made up. -/
def Ahead (r : Registry) (h : Handle) : Prop := ∃ n, r.minted < n ∧ h = ⟨Fresh.name "var_" n⟩

/-- A handle may still be made up. -/
def Upcoming (r : Registry) (h : Handle) : Prop := h ∉ r.handles ∧ r.Ahead h

theorem ahead_mint (r : Registry) : r.Ahead r.mint.1 :=
  ⟨_, Fresh.lt_next "var_" (fun s => r.declares ⟨s⟩) r.vars.length r.minted, rfl⟩

theorem upcoming_mint (r : Registry) : r.Upcoming r.mint.1 := ⟨r.mint_not_mem, r.ahead_mint⟩

theorem minted_le_mint (r : Registry) : r.minted ≤ r.mint.2.minted :=
  Nat.le_of_lt (Fresh.lt_next "var_" (fun s => r.declares ⟨s⟩) r.vars.length r.minted)

/-! ### Registries over time -/

/-- One registry comes from another one: handles were made up with numbers that were ahead. -/
structure Later (r r' : Registry) : Prop where
  /-- Numbers go up. -/
  minted : r.minted ≤ r'.minted
  /-- Whatever is new was ahead. -/
  handles : ∀ h ∈ r'.handles, h ∈ r.handles ∨ r.Ahead h

theorem Later.refl (r : Registry) : r.Later r := ⟨Nat.le_refl _, fun _ hh => .inl hh⟩

theorem Later.ahead {r r' : Registry} (hr : r.Later r') {h : Handle} (hh : r'.Ahead h) :
    r.Ahead h := by
  obtain ⟨n, hn, rfl⟩ := hh
  exact ⟨n, Nat.lt_of_le_of_lt hr.minted hn, rfl⟩

theorem Later.trans {r r' r'' : Registry} (hr : r.Later r') (hr' : r'.Later r'') :
    r.Later r'' := by
  refine ⟨Nat.le_trans hr.minted hr'.minted, fun h hh => ?_⟩
  rcases hr'.handles h hh with hh | hh
  · exact hr.handles h hh
  · exact .inr (hr.ahead hh)

theorem later_mint_push (r : Registry) (declared resolved : String) :
    r.Later (r.mint.2.push ⟨r.mint.1, declared, resolved⟩) := by
  refine ⟨r.minted_le_mint, fun h hh => ?_⟩
  rw [handles_push] at hh
  rcases List.mem_append.mp hh with hh | hh
  · exact .inl hh
  · exact .inr (List.mem_singleton.mp hh ▸ r.ahead_mint)

theorem later_register (r : Registry) (name : String) : r.Later (r.register name).2 := by
  rcases register_cases r name with ⟨v, -, h⟩ | ⟨-, h⟩
  · rw [h]
    exact .refl r
  · rw [h]
    exact later_mint_push r _ _

theorem later_bind (r : Registry) (name : String) : r.Later (r.bind name).2 := by
  rcases bind_cases r name with ⟨v, -, h⟩ | h
  · rw [h]
    exact .refl r
  · rw [h]
    exact later_register r name

theorem later_rename {r r' : Registry} {h holder : Handle} {name : String}
    (hn : r.rename h name = some (holder, r')) : r.Later r' := by
  refine ⟨?_, fun g hg => .inl ((handles_of_rename hn).1 ▸ hg)⟩
  rcases rename_cases r h name with ⟨-, hnone⟩ | ⟨i, -, ⟨v, -, -, hs⟩ | ⟨-, hs⟩⟩
  · rw [hnone] at hn
    cases hn
  · rw [hs] at hn
    cases hn
    exact Nat.le_refl _
  · rw [hs] at hn
    cases hn
    exact Nat.le_refl _

theorem later_remove (r : Registry) (h : Handle) : r.Later (r.remove h) :=
  ⟨Nat.le_refl _, fun _ hg => .inl (((vars_remove_sublist r h).map _).subset hg)⟩

/-- Whatever is done to a registry, it comes from the one at the start. -/
theorem kept_later (r : Registry) : Kept r.Later :=
  ⟨fun hr name => hr.trans (later_register _ name), fun hr name => hr.trans (later_bind _ name),
    fun hr hn => hr.trans (later_rename hn), fun hr h => hr.trans (later_remove _ h)⟩

end Registry

/-! ### Migration -/

theorem Migration.later_step (m : Migration) (old : Variable) (index : Nat) :
    m.registry.Later (m.step old index).registry := by
  rcases m.step_cases old index with ⟨-, -, h⟩ | ⟨v, -, h⟩ | ⟨-, -, h⟩
  · rw [h]
    exact .refl _
  · rw [h]
    exact Registry.later_remove _ _
  · rw [h]
    exact (Registry.later_mint_push _ _ _).trans (Registry.later_remove _ _)

theorem Migration.later_run (m : Migration) (rest : List (Variable × Nat)) :
    m.registry.Later (rest.foldl (fun m (old, index) => m.step old index) m).registry := by
  exact run_of_step (I := fun m' _ => m.registry.Later m'.registry)
    (fun h => h.trans (later_step _ _ _)) (.refl _)

namespace Workspace

/-- Migration when so many variables have had their turn. -/
def migrating (w : Workspace) (turns : Nat) : Migration :=
  (w.registry.vars.zipIdx.take turns).foldl (fun m (old, index) => m.step old index)
    ⟨w.registry, w.top.map TopBlock.block, 0⟩

/-- After all turns migration is over. -/
theorem migrating_length (w : Workspace) :
    w.migrating w.registry.vars.length = w.registry.migrate (w.top.map TopBlock.block) := by
  rw [migrating, List.take_of_length_le (by rw [List.length_zipIdx]), Registry.migrate]

theorem later_migrating (w : Workspace) (turns : Nat) :
    w.registry.Later (w.migrating turns).registry :=
  Migration.later_run ⟨w.registry, w.top.map TopBlock.block, 0⟩ _

/-! ### Calls -/

/-- Whatever is called, the registry comes from the one before. -/
theorem later_call (w : Workspace) (c : Call) : w.registry.Later (w.call c).registry := by
  have hkept := Registry.kept_later w.registry
  have hstart := Registry.Later.refl w.registry
  cases c with
  | add b ordered position => exact registry_add hkept hstart b position
  | move id placement => exact registry_move hstart id placement
  | remove id => exact registry_remove hstart id
  | setField id name value => exact registry_setField hkept hstart id name value
  | createVariable name => exact w.registry.later_register name
  | renameVariable h name => exact registry_renameVariable hkept hstart h name
  | deleteVariable h => exact registry_deleteVariable hkept hstart h
  | migrate =>
    show w.registry.Later (w.registry.migrate _).registry
    rw [← migrating_length]
    exact w.later_migrating _
  | mint => exact hstart

/-- No handle on the canvas may still be made up. -/
def Guarded (w : Workspace) : Prop :=
  ∀ b ∈ w.walk, ∀ h ∈ b.node.handles, ¬ w.registry.Upcoming h

/-- No call hands over a handle that may still be made up when its turn comes. -/
def Careful (w : Workspace) : List Call → Prop
  | [] => True
  | c :: calls => (∀ h ∈ c.handles, ¬ w.registry.Upcoming h) ∧ (w.call c).Careful calls

theorem not_upcoming_iff {r : Registry} {h : Handle} :
    ¬ r.Upcoming h ↔ h ∈ r.handles ∨ ¬ r.Ahead h := by
  rw [Registry.Upcoming, not_and_or, not_not]

theorem guarded_iff {w : Workspace} : w.Guarded ↔ w.Covered fun h => ¬ w.registry.Ahead h := by
  simp only [Guarded, Covered, Registry.Covers, ← map_node_walk, List.forall_mem_map,
    not_upcoming_iff]

/-- A call that is careful keeps a canvas guarded: what was not ahead is not ahead later on. -/
theorem Guarded.call {w : Workspace} (hw : w.Guarded) {c : Call}
    (hc : ∀ h ∈ c.handles, ¬ w.registry.Upcoming h) : (w.call c).Guarded := by
  rw [guarded_iff] at hw ⊢
  have hcovered := hw.call fun h hh => not_upcoming_iff.mp (hc h hh)
  exact fun n hn h hh => (hcovered n hn h hh).imp_right fun hahead hlater =>
    hahead ((w.later_call c).ahead hlater)

theorem Guarded.callAll {w : Workspace} (hw : w.Guarded) {calls : List Call}
    (hcalls : w.Careful calls) : (w.callAll calls).Guarded := by
  induction calls generalizing w with
  | nil => exact hw
  | cons c calls ih => exact ih (hw.call hcalls.1) hcalls.2

/-- On a guarded canvas a handle that is made up in the course of a migration is not in use when it
is made up. -/
theorem Guarded.mint_not_mem {w : Workspace} (hw : w.Guarded) (turns : Nat) :
    ∀ n ∈ (w.migrating turns).nodes, (w.migrating turns).registry.mint.1 ∉ n.handles := by
  have hstart : w.registry.Covers (fun h => ¬ w.registry.Ahead h)
      (Migration.nodes ⟨w.registry, w.top.map TopBlock.block, 0⟩) := by
    rw [Migration.nodes, List.flatMap_map]
    exact guarded_iff.mp hw
  have hcovers : (w.migrating turns).registry.Covers (fun h => ¬ w.registry.Ahead h)
      (w.migrating turns).nodes :=
    Migration.covers_run (m := ⟨w.registry, w.top.map TopBlock.block, 0⟩) hstart _
  intro n hn hh
  rcases hcovers n hn _ hh with hdeclared | hpast
  · exact (w.migrating turns).registry.mint_not_mem hdeclared
  · exact hpast ((w.later_migrating turns).ahead (w.migrating turns).registry.ahead_mint)

end Workspace

/-! ### Programs -/

/-- A variable that is added makes no difference to other handles. -/
theorem Registry.lookup_push_of_ne (r : Registry) {v : Variable} {h : Handle} (hne : v.handle ≠ h) :
    (r.push v).lookup (some h) = r.lookup (some h) := by
  have hposition : (r.push v).position? h = r.position? h := by
    rw [position?, vars_push, List.findIdx?_append]
    simp [position?, hne]
  cases hi : r.position? h with
  | none => simp [lookup, hposition, hi]
  | some i =>
    obtain ⟨u, hu, -⟩ := position?_eq_some hi
    have hlt : i < r.vars.length := (List.getElem?_eq_some_iff.mp hu).1
    simp [lookup, hposition, hi, List.getElem?_append_left hlt]

/-- What handles stand for matters only as far as they are in use. -/
theorem Program.text_congr {r r' : Registry} {top : List TopBlock}
    (h : ∀ t ∈ top, ∀ n ∈ t.block.nodes, ∀ h ∈ n.handles,
      r'.lookup (some h) = r.lookup (some h)) (order : Order) :
    text order r' top = text order r top := by
  have hsame : top.map (TopBlock.mapHandle fun h => h) = top := by
    refine (List.map_congr_left fun t _ => ?_).trans (List.map_id' top)
    rw [TopBlock.mapHandle, Block.map_mapHandle_id]
  have htext := text_mapHandle (ρ := fun h => h) h order
  rwa [hsame] at htext

namespace Workspace

/-- On a guarded canvas a variable that is created is in no use yet. -/
theorem Guarded.program_createVariable {w : Workspace} (hw : w.Guarded) (name : String)
    (order : Order) : (w.createVariable name).2.program order = w.program order := by
  show Program.text order (w.registry.register name).2 w.top = Program.text order w.registry w.top
  refine Program.text_congr (fun t ht n hn h hh => ?_) order
  rcases Registry.register_cases w.registry name with ⟨v, -, hr⟩ | ⟨-, hr⟩
  · rw [hr]
  · have hwalk : n ∈ w.walk.map Block.node := by
      rw [map_node_walk]
      exact List.mem_flatMap.mpr ⟨t, ht, hn⟩
    obtain ⟨b, hb, rfl⟩ := List.mem_map.mp hwalk
    have hne : w.registry.mint.1 ≠ h := by
      rintro rfl
      exact hw b hb _ hh w.registry.upcoming_mint
    rw [hr, Registry.lookup_push_of_ne _ hne]
    rfl

/-! ### Capture -/

/-- There is always an identifier by which no variable goes yet. -/
theorem exists_name (r : Registry) : ∃ name, Identifier.isIdentifier name ∧ name ∉ r.names := by
  let n := Fresh.next "var" (fun s => decide (s ∈ r.names)) r.names.length 0
  have hfree : decide (Fresh.name "var" n ∈ r.names) = false :=
    Fresh.not_inUse_next "var" (fun s => decide (s ∈ r.names)) r.names
      (fun s hs => of_decide_eq_true hs) (Nat.le_refl _) 0
  exact ⟨Fresh.name "var" n, Identifier.isIdentifier_append_toString (by decide) n,
    of_decide_eq_false hfree⟩

/-- Creating a variable under a new identifier makes up a handle. -/
theorem exists_createVariable (w : Workspace) :
    ∃ name declared resolved, (w.createVariable name).2 =
      { w with registry := w.registry.mint.2.push ⟨w.registry.mint.1, declared, resolved⟩ } := by
  obtain ⟨name, hid, hnew⟩ := exists_name w.registry
  refine ⟨name, name, name, ?_⟩
  have hnamed := Registry.named?_eq_none_iff.mpr hnew
  rw [createVariable, Registry.register]
  simp only [Identifier.sanitize_of_isIdentifier hid, hnamed]

/-- Every handle that may still be made up is made up after some variables have been created. -/
theorem exists_minted {w : Workspace} {h : Handle} (hh : w.registry.Upcoming h) :
    ∃ (names : List String) (name : String),
      let v := w.callAll (names.map .createVariable)
      v.top = w.top ∧ h ∉ v.registry.handles ∧
        h ∈ (v.createVariable name).2.registry.handles := by
  obtain ⟨hfree, n, hn, rfl⟩ := hh
  -- the number comes nearer with every variable
  obtain ⟨d, hd⟩ : ∃ d, n ≤ w.registry.minted + d := ⟨n, by omega⟩
  induction d generalizing w with
  | zero => omega
  | succ d ih =>
    obtain ⟨name, declared, resolved, hcreate⟩ := exists_createVariable w
    have hup : w.registry.minted < w.registry.mint.2.minted := Fresh.lt_next _ _ _ _
    have hle : w.registry.mint.2.minted ≤ n := by
      have hunused : w.registry.declares ⟨Fresh.name "var_" n⟩ = false :=
        Bool.eq_false_iff.mpr fun hd => hfree (Registry.declares_iff.mp hd)
      exact Fresh.next_le hunused _ hn
    have hhandles : (w.createVariable name).2.registry.handles =
        w.registry.handles ++ [⟨Fresh.name "var_" w.registry.mint.2.minted⟩] := by
      rw [hcreate, Registry.handles_push]
      rfl
    have hminted : (w.createVariable name).2.registry.minted = w.registry.mint.2.minted := by
      rw [hcreate]
      rfl
    by_cases hlast : w.registry.mint.2.minted = n
    · refine ⟨[], name, rfl, hfree, ?_⟩
      show _ ∈ (w.createVariable name).2.registry.handles
      rw [hhandles, hlast]
      exact List.mem_append_right _ (List.mem_singleton.mpr rfl)
    · have hother : ⟨Fresh.name "var_" n⟩ ∉ (w.createVariable name).2.registry.handles := by
        rw [hhandles]
        intro hmem
        rcases List.mem_append.mp hmem with hmem | hmem
        · exact hfree hmem
        · have htext := congrArg Handle.text (List.mem_singleton.mp hmem)
          exact hlast (Fresh.name_injective "var_" htext).symm
      obtain ⟨names, last, htop, hstill, hmade⟩ := ih (by omega) hother (by omega)
      refine ⟨name :: names, last, htop.trans ?_, hstill, hmade⟩
      rw [hcreate]

theorem careful_createVariable (w : Workspace) (names : List String) :
    w.Careful (names.map .createVariable) := by
  induction names generalizing w with
  | nil => trivial
  | cons name names ih => exact ⟨fun h hh => absurd hh List.not_mem_nil, ih _⟩

/-- **When handles that are made up are new to the canvas**: exactly if no handle on it is one that
may still be made up. Then, after any calls that do not hand over such a handle, no handle that
a call declares is on a block, none that is made up for a variable in the course of a
migration is on a block at that moment, and creating a variable does not change the program. -/
theorem guarded_iff_fresh (w : Workspace) :
    w.Guarded ↔ ∀ calls, w.Careful calls →
      let v := w.callAll calls
      (∀ c h, (v.call c).registry.declares h → ¬ v.registry.declares h →
        ∀ b ∈ v.walk, h ∉ b.node.handles) ∧
      (∀ turns, ∀ n ∈ (v.migrating turns).nodes,
        (v.migrating turns).registry.mint.1 ∉ n.handles) ∧
      ∀ name order, (v.createVariable name).2.program order = v.program order := by
  constructor
  · intro hw calls hcalls v
    have hv : v.Guarded := hw.callAll hcalls
    refine ⟨fun c h hafter hbefore b hb hh => hv b hb h hh ?_, hv.mint_not_mem,
      hv.program_createVariable⟩
    rw [Registry.declares_iff] at hafter hbefore
    exact ⟨hbefore, ((v.later_call c).handles h hafter).resolve_left hbefore⟩
  · intro hfresh b hb h hh hupcoming
    obtain ⟨names, name, htop, hbefore, hafter⟩ := exists_minted hupcoming
    obtain ⟨hnew, -⟩ := hfresh _ (w.careful_createVariable names)
    refine hnew (.createVariable name) h (Registry.declares_iff.mpr hafter)
      (fun hd => hbefore (Registry.declares_iff.mp hd)) b ?_ hh
    rw [walk, htop]
    exact hb

/-- One block refers to a variable that was never declared, another one to a variable whose number is
ahead. Both variables that are declared are replaced, and the handle of the first is made up again
for the second. -/
theorem guarded_iff_fresh_replaced :
    let r := (Registry.empty.declare ⟨"var_2"⟩ "my score").declare ⟨"x"⟩ "a b"
    let get (id h : String) : Node := ⟨⟨id⟩, .variableGet, ⟨[("VAR", .var ⟨h⟩)]⟩⟩
    let w : Workspace := .ofParts
      [⟨⟨get "a" "gone", .nil⟩, none⟩, ⟨⟨get "b" "var_2", .nil⟩, none⟩] r
    let v := w.callAll [.migrate]
    w.Guarded ∧ v.registry.handles = [⟨"var_1"⟩, ⟨"var_2"⟩] ∧
      v.walk.map (fun b => b.node.handles) = [[⟨"gone"⟩], [⟨"var_1"⟩]] ∧
      (∀ c h, (v.call c).registry.declares h → ¬ v.registry.declares h →
        ∀ b ∈ v.walk, h ∉ b.node.handles) ∧
      (∀ turns, ∀ n ∈ (v.migrating turns).nodes,
        (v.migrating turns).registry.mint.1 ∉ n.handles) ∧
      ∀ name order, (v.createVariable name).2.program order = v.program order := by
  intro r get w v
  have hgone : ¬ r.Ahead ⟨"gone"⟩ := by
    rintro ⟨n, -, hname⟩
    have hchars := congrArg (fun h => h.text.toList.head?) hname
    simp [Fresh.name] at hchars
  have hguarded : w.Guarded := by
    intro b hb h hh
    have hcases : h ∈ [(⟨"gone"⟩ : Handle), ⟨"var_2"⟩] := by
      have hall : w.walk.flatMap (fun b => b.node.handles) = [⟨"gone"⟩, ⟨"var_2"⟩] := by decide
      rw [← hall]
      exact List.mem_flatMap.mpr ⟨b, hb, hh⟩
    rintro ⟨hfree, hahead⟩
    simp only [List.mem_cons, List.not_mem_nil, or_false] at hcases
    rcases hcases with rfl | rfl
    · exact hgone hahead
    · exact hfree (by decide)
  have hcareful : w.Careful [.migrate] := ⟨fun h hh => absurd hh List.not_mem_nil, trivial⟩
  exact ⟨hguarded, by decide, by decide, (guarded_iff_fresh w).mp hguarded _ hcareful⟩

/-- A document whose one block refers to a handle that it does not declare: the first variable that
is created gets this handle, and the program changes. Nor is a handle that migration makes up
always one that no block held before. -/
theorem captured_by_creation :
    (∃ w, Document.read ("<xml><block type=\"variables_get\" id=\"g\">" ++
          "<field name=\"VAR\" id=\"var_1\"></field></block></xml>") = .ok w ∧
        w.walk.map (fun b => b.node.handles) = [[⟨"var_1"⟩]] ∧
        (w.createVariable "x").1 = ⟨"var_1"⟩ ∧ w.registry.declares ⟨"var_1"⟩ = false ∧
        w.program .insertion = "var1\n" ∧
        (w.createVariable "x").2.program .insertion = "x\n") ∧
    let r := (Registry.empty.declare ⟨"var_2"⟩ "my score").declare ⟨"x"⟩ "a b"
    let w : Workspace := .ofParts
      [⟨⟨⟨⟨"g"⟩, .variableGet, ⟨[("VAR", .var ⟨"var_2"⟩)]⟩⟩, .nil⟩, none⟩] r
    w.walk.map (fun b => b.node.handles) = [[⟨"var_2"⟩]] ∧
      (w.migrating 1).registry.mint.1 = ⟨"var_2"⟩ ∧
      w.migrate.2.registry.vars.map (fun v => (v.handle, v.resolved)) =
        [(⟨"var_1"⟩, "my_score"), (⟨"var_2"⟩, "a_b")] := by
  refine ⟨⟨_, rfl, ?_, ?_, ?_, ?_, ?_⟩, ?_, ?_, ?_⟩ <;> decide

end Workspace

end BlockProgram
