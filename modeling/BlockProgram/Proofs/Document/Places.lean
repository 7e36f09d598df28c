import BlockProgram.Generate
import BlockProgram.Proofs.Document.Texts
import BlockProgram.Proofs.Number.Coordinate

/-!
# Places on a canvas that is saved

A canvas that is written and read comes back with its blocks and its variables. Its chains come back
at the places that their coordinates are read as, `Workspace.saved`, so that only their places can
have moved. What is written of a canvas is decided by its blocks, by the texts of its coordinates,
and by the handles of its variables and the names they go by.
-/

namespace BlockProgram

open Xml Document

/-! ### Saved places -/

namespace Position

/-- Both coordinates are finite. -/
def isFinite (p : Position) : Bool := p.x.isFinite && p.y.isFinite

/-- The place that is read from what is written of a place. -/
def saved (p : Position) : Position := ⟨Coordinate.saved p.x, Coordinate.saved p.y⟩

theorem isFinite_saved (p : Position) : p.saved.isFinite := by
  rw [isFinite, Bool.and_eq_true]
  exact ⟨Coordinate.isFinite_saved p.x, Coordinate.isFinite_saved p.y⟩

end Position

/-- A chain at the place that is read from what is written of its place. -/
def TopBlock.saved (t : TopBlock) : TopBlock := { t with position := t.position.map Position.saved }

namespace Workspace

/-- A canvas with all chains at the places that are read from what is written of it. -/
def saved (w : Workspace) : Workspace := { w with top := w.top.map TopBlock.saved }

theorem nodes_saved (w : Workspace) : w.saved.nodes = w.nodes := by
  rw [nodes, nodes, topNodes, topNodes, saved, List.flatMap_map]
  rfl

theorem walk_saved (w : Workspace) : w.saved.walk = w.walk := by
  rw [walk, walk, saved, List.flatMap_map]
  rfl

/-- A canvas that can be saved and restored: all that holds of every canvas that can come about, on
which kinds are named by tags, strings are texts and coordinates are finite. -/
structure Restorable (w : Workspace) : Prop where
  /-- It can come about. -/
  sound : w.Sound
  /-- Its kinds are named by tags. -/
  tagged : ∀ n ∈ w.nodes, n.Tagged
  /-- Its strings are texts that a document may hold. -/
  legible : w.Legible
  /-- Chains that have a place are at finite coordinates. -/
  finite : ∀ t ∈ w.top, ∀ p ∈ t.position, p.isFinite

theorem Restorable.saved {w : Workspace} (hw : w.Restorable) : w.saved.Restorable := by
  refine ⟨⟨?_, ?_, hw.sound.handles, ?_⟩, ?_, ⟨?_, hw.legible.names⟩, ?_⟩
  · exact List.forall_mem_map.mpr hw.sound.ordered
  · rw [nodes_saved]
    exact hw.sound.ids
  · rw [nodes_saved]
    exact hw.sound.bound
  · rw [nodes_saved]
    exact hw.tagged
  · rw [walk_saved]
    exact hw.legible.blocks
  · refine List.forall_mem_map.mpr fun t _ p hp => ?_
    obtain ⟨q, -, rfl⟩ := Option.map_eq_some_iff.mp hp
    exact q.isFinite_saved

end Workspace

theorem TopBlock.position_element_of_finite (r : Registry) {t : TopBlock}
    (hp : ∀ p ∈ t.position, p.isFinite) :
    (t.element r).position = t.position.map Position.saved := by
  obtain ⟨b, position⟩ := t
  cases position with
  | none => rfl
  | some p =>
    obtain ⟨hx, hy⟩ := Bool.and_eq_true_iff.mp (hp p rfl)
    simp [TopElement.position, TopBlock.element, Coordinate.readFinite?_text hx,
      Coordinate.readFinite?_text hy, Position.saved]

/-- **A canvas that is saved is restored with its chains at their saved places.** -/
theorem Workspace.Restorable.read_saved {w : Workspace} (hw : w.Restorable) :
    ∃ w', Document.read (Document.write w) = .ok w' ∧ w'.top = w.saved.top ∧
      w'.registry.vars.map (fun v => (v.handle, v.resolved)) =
        w.registry.vars.map (fun v => (v.handle, v.resolved)) := by
  obtain ⟨w', hread, htop, hvars⟩ := hw.legible.read_elements hw.sound hw.tagged
  refine ⟨w', hread, htop.trans ?_, hvars⟩
  refine List.map_congr_left fun t ht => ?_
  rw [TopBlock.position_element_of_finite w.registry (hw.finite t ht)]
  rfl

/-! ### What is read can be saved -/

theorem Document.finite_of_readTop {es : List TopElement} {top : List TopBlock} {s s' : Reading}
    (h : readTop es s = .ok (top, s')) : ∀ t ∈ top, ∀ p ∈ t.position, p.isFinite := by
  have hread : ∀ {text? : Option String} {d : Double},
      text?.bind Double.readFinite? = some d → d.isFinite := by
    intro text? d hd
    obtain ⟨text, -, hd⟩ := Option.bind_eq_some_iff.mp hd
    exact (Option.filter_eq_some_iff.mp hd).2
  induction es generalizing top s s' with
  | nil =>
    cases h
    exact fun t ht => absurd ht List.not_mem_nil
  | cons e es ih =>
    rw [readTop] at h
    split at h
    · cases h
    · split at h
      · cases h
      · rename_i bs s₂ hbs
        cases h
        refine List.forall_mem_cons.mpr ⟨fun p hp => ?_, ih hbs⟩
        dsimp only [TopElement.position] at hp
        split at hp
        · rename_i x y hx hy
          cases hp
          exact Bool.and_eq_true_iff.mpr ⟨hread hx, hread hy⟩
        · cases hp

theorem Document.exists_of_map_eq_ok {α β : Type} {f : α → β} {x : Except DocumentError α} {b : β}
    (h : x.map f = .ok b) : ∃ a, x = .ok a ∧ b = f a := by
  cases x with
  | error fault => cases h
  | ok a =>
    cases h
    exact ⟨a, rfl, rfl⟩

/-- What is loaded is what is read, with identifiers for names. -/
theorem Document.exists_read_of_load {text : String} {w : Workspace} (h : load text = .ok w) :
    ∃ w₀, read text = .ok w₀ ∧ w = w₀.migrate.2 := exists_of_map_eq_ok h

/-- The variables of what is loaded go by distinct identifiers. -/
theorem Document.clean_of_load {text : String} {w : Workspace} (h : load text = .ok w) :
    w.registry.Clean := by
  obtain ⟨w₀, hread, rfl⟩ := exists_read_of_load h
  exact Registry.clean_migrate (sound_of_read hread).1.handles _

/-- What is loaded is legible, unless the document declares the second version. -/
theorem Document.legible_of_load {text : String} (hversion : version? text ≠ some .second)
    {w : Workspace} (h : load text = .ok w) : w.Legible := by
  obtain ⟨w₀, hread, rfl⟩ := exists_read_of_load h
  exact (legible_of_read hversion hread).migrate (sound_of_read hread).1

/-- **What is loaded from a document can be saved and restored if it is legible.** -/
theorem Document.restorable_of_load {text : String} {w : Workspace} (h : load text = .ok w)
    (hlegible : w.Legible) : w.Restorable := by
  obtain ⟨w₀, hread, rfl⟩ := exists_read_of_load h
  obtain ⟨ρ, hρ⟩ := Workspace.exists_blocks_migrate w₀.registry (w₀.top.map TopBlock.block)
  refine ⟨(sound_of_read hread).1.migrate, Workspace.tagged_migrate (tagged_of_read hread),
    hlegible, ?_⟩
  obtain ⟨o, s, htop, -⟩ := exists_readTop_of_read hread
  rw [Workspace.top_migrate hρ]
  exact List.forall_mem_map.mpr (finite_of_readTop htop)

/-! ### What decides what is written -/

/-- Under which name a handle is written depends on nothing but the handles and the names of the
variables. -/
theorem Field.content_congr {r r' : Registry}
    (h : r'.vars.map (fun v => (v.handle, v.resolved)) =
      r.vars.map fun v => (v.handle, v.resolved)) : Field.content r' = Field.content r := by
  have hget : ∀ (r : Registry) (g : Handle), (r.get? g).map Variable.resolved =
      ((r.vars.map fun v => (v.handle, v.resolved)).find? (·.1 = g)).map Prod.snd := by
    intro r g
    rw [Registry.get?, List.find?_map, Option.map_map]
    rfl
  funext f
  cases f with
  | text s => rfl
  | var g => rw [Field.content, Field.content, hget, hget, h]

section Markup

variable {r r' : Registry} (h : Field.content r' = Field.content r)
include h

theorem Fields.markup_congr (f : Fields) (rest : Markup) : f.markup r' rest = f.markup r rest := by
  rw [Fields.markup, Fields.markup]
  congr 1
  funext e rest
  rw [Field.markup_eq, Field.markup_eq, h]

theorem Children.markup_congr (cs : Children) : cs.markup r' = cs.markup r := by
  induction cs with
  | nil => rfl
  | cons slot n below rest ihb ihr =>
    rw [Children.markup, Children.markup, Node.markup, Node.markup, ihb, ihr,
      Fields.markup_congr h]

end Markup

/-- **What decides what is written of a canvas**: its blocks, the texts of its coordinates, and the
handles and the names of its variables. -/
theorem Document.write_congr {w w' : Workspace}
    (htop : w'.top.map (fun t => (t.block, t.position.map Position.attributes)) =
      w.top.map fun t => (t.block, t.position.map Position.attributes))
    (hvars : w'.registry.vars.map (fun v => (v.handle, v.resolved)) =
      w.registry.vars.map fun v => (v.handle, v.resolved)) : write w' = write w := by
  have hcontent := Field.content_congr hvars
  -- a chain is written from its blocks and the texts of its coordinates
  have hfold : ∀ (r : Registry) (top : List TopBlock), top.foldr (TopBlock.markup r) .nil =
      (top.map fun t => (t.block, t.position.map Position.attributes)).foldr
        (fun e rest => e.1.node.markup r (e.2.getD []) (e.1.children.markup r) rest) .nil := by
    intro r top
    rw [List.foldr_map]
    rfl
  have hblocks : w'.top.foldr (TopBlock.markup w'.registry) .nil =
      w.top.foldr (TopBlock.markup w.registry) .nil := by
    rw [hfold, hfold, htop]
    congr 1
    funext e rest
    rw [Node.markup, Node.markup, Fields.markup_congr hcontent, Children.markup_congr hcontent]
  have hregistry : w'.registry.markup = w.registry.markup := by
    have hmarkup : ∀ r : Registry, r.markup = (r.vars.map fun v => (v.handle, v.resolved)).foldr
        (fun e rest => .text "variable" [("id", e.1.text)] e.2 rest) .nil := by
      intro r
      rw [List.foldr_map]
      rfl
    rw [hmarkup, hmarkup, hvars]
  have hempty : w'.registry.vars.isEmpty = w.registry.vars.isEmpty := by
    have hlength := congrArg List.length hvars
    rw [List.length_map, List.length_map] at hlength
    rw [Bool.eq_iff_iff, List.isEmpty_iff_length_eq_zero, List.isEmpty_iff_length_eq_zero, hlength]
  rw [write, write, markup, markup, hblocks, hregistry, hempty]

end BlockProgram
