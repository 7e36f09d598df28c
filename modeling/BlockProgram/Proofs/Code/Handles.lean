import BlockProgram.Code.Program
import BlockProgram.Proofs.Block.Nodes
import BlockProgram.Proofs.Variable.Registry

/-!
# Handles in program text

The text of a program shows the names of variables, never their handles. So other handles can be
put into the settings of all blocks, and another registry can be taken along with them: as long as
every handle stands for the name that it stood for, the text is the same.
-/

namespace BlockProgram

/-! ### The handles of a block -/

namespace Node

/-- The handles in the settings of a block. -/
def handles (n : Node) : List Handle := n.fields.entries.filterMap fun e => e.2.handle?

theorem mem_handles_of_handle? {n : Node} {name : String} {h : Handle}
    (hh : n.handle? name = some h) : h ∈ n.handles := by
  obtain ⟨f, hf, hfh⟩ := Option.bind_eq_some_iff.mp hh
  obtain ⟨before, after, hentries, -⟩ := List.lookup_eq_some_iff.mp hf
  exact List.mem_filterMap.mpr ⟨(name, f), by simp [hentries], hfh⟩

theorem handle?_mapHandle (ρ : Handle → Handle) (n : Node) (name : String) :
    (n.mapHandle ρ).handle? name = (n.handle? name).map ρ := by
  rw [handle?, mapHandle, Fields.get?_mapValues, handle?]
  cases n.fields.get? name with
  | none => rfl
  | some field => cases field <;> rfl

end Node

/-- Other handles stand for the same under another registry, as far as a block goes. -/
def Registry.Agrees (r r' : Registry) (ρ : Handle → Handle) (n : Node) : Prop :=
  ∀ h ∈ n.handles, r'.lookup (some (ρ h)) = r.lookup (some h)

section Agrees

variable {r r' : Registry} {ρ : Handle → Handle}

/-! ### Blocks -/

theorem Registry.Agrees.lookup_eq {n : Node} (hn : r.Agrees r' ρ n) (name : String) :
    r'.lookup ((n.mapHandle ρ).handle? name) = r.lookup (n.handle? name) := by
  rw [Node.handle?_mapHandle]
  cases hh : n.handle? name with
  | none => rfl
  | some h => exact hn h (Node.mem_handles_of_handle? hh)

theorem Registry.Agrees.resolve_eq {n : Node} (hn : r.Agrees r' ρ n) (name : String) :
    r'.resolve ((n.mapHandle ρ).handle? name) = r.resolve (n.handle? name) := by
  rw [resolve, resolve, hn.lookup_eq]

@[simp] theorem Node.kind_mapHandle (ρ : Handle → Handle) (n : Node) :
    (n.mapHandle ρ).kind = n.kind := rfl

theorem Node.expression_mapHandle {n : Node} (hn : r.Agrees r' ρ n) (args : Arguments) :
    (n.mapHandle ρ).expression r' args = n.expression r args := by
  simp only [expression, kind_mapHandle, text?_mapHandle, hn.resolve_eq]

theorem Node.statement_mapHandle {n : Node} (hn : r.Agrees r' ρ n) (args : Arguments)
    (suites : Suites) :
    (n.mapHandle ρ).statement r' args suites = n.statement r args suites := by
  simp only [statement, kind_mapHandle, text?_mapHandle, hn.lookup_eq, expression_mapHandle hn]

/-! ### Trees -/

theorem Children.arguments_map {cs : Children} (h : ∀ n ∈ cs.nodes, r.Agrees r' ρ n) :
    (cs.map (Node.mapHandle ρ)).arguments r' = cs.arguments r := by
  induction cs with
  | nil => rfl
  | cons s n below rest ihb ihr =>
    obtain ⟨hn, h⟩ := List.forall_mem_cons.mp h
    obtain ⟨hbelow, hrest⟩ := List.forall_mem_append.mp h
    cases s with
    | input name =>
      simp only [map, arguments, ihb hbelow, ihr hrest, Node.expression_mapHandle hn]
    | statement name => simp only [map, arguments, ihr hrest]
    | next => simp only [map, arguments, ihr hrest]

theorem Children.suites_map {cs : Children} (h : ∀ n ∈ cs.nodes, r.Agrees r' ρ n) :
    (cs.map (Node.mapHandle ρ)).suites r' = cs.suites r := by
  induction cs with
  | nil => rfl
  | cons s n below rest ihb ihr =>
    obtain ⟨hn, h⟩ := List.forall_mem_cons.mp h
    obtain ⟨hbelow, hrest⟩ := List.forall_mem_append.mp h
    cases s with
    | input name => simp only [map, suites, ihr hrest]
    | statement name =>
      simp only [map, suites, ihb hbelow, ihr hrest, arguments_map hbelow,
        Node.statement_mapHandle hn]
    | next =>
      simp only [map, suites, ihb hbelow, ihr hrest, arguments_map hbelow,
        Node.statement_mapHandle hn]

theorem Block.render_map {b : Block} (h : ∀ n ∈ b.nodes, r.Agrees r' ρ n) (level : Nat) :
    (b.map (Node.mapHandle ρ)).render r' level = b.render r level := by
  obtain ⟨hn, hbelow⟩ := List.forall_mem_cons.mp h
  simp only [render, suite, map, Children.suites_map hbelow, Children.arguments_map hbelow,
    Node.statement_mapHandle hn]

/-! ### Canvases -/

/-- A chain with other handles in the settings of its blocks. -/
def TopBlock.mapHandle (ρ : Handle → Handle) (t : TopBlock) : TopBlock :=
  { t with block := t.block.map (Node.mapHandle ρ) }

/-- Which chain is seen first does not depend on handles. -/
theorem TopBlock.visualLE_mapHandle (ρ : Handle → Handle) (t u : TopBlock) :
    (t.mapHandle ρ).visualLE (u.mapHandle ρ) = t.visualLE u := rfl

/-- **The text of a program is that of the names**: other handles that stand for the same give the
same text, in either order. -/
theorem Program.text_mapHandle {top : List TopBlock}
    (h : ∀ t ∈ top, ∀ n ∈ t.block.nodes, r.Agrees r' ρ n) (order : Order) :
    text order r' (top.map (TopBlock.mapHandle ρ)) = text order r top := by
  have harrange : arrange order (top.map (TopBlock.mapHandle ρ)) =
      (arrange order top).map (TopBlock.mapHandle ρ) := by
    cases order with
    | insertion => rfl
    | visual => exact (List.map_mergeSort fun t _ u _ => (t.visualLE_mapHandle ρ u).symm).symm
  have hmem : ∀ t ∈ arrange order top, t ∈ top := by
    cases order with
    | insertion => exact fun t ht => ht
    | visual => exact fun t ht => List.mem_mergeSort.mp ht
  have hrender : ∀ t ∈ arrange order top,
      (t.mapHandle ρ).block.render r' 0 = t.block.render r 0 :=
    fun t ht => Block.render_map (h t (hmem t ht)) 0
  rw [text, text, List.isEmpty_map, harrange, List.map_map]
  congr 2
  exact List.map_congr_left hrender

end Agrees

/-- Once they are arranged, chains are written by their blocks alone, and variables by their
names. -/
theorem Program.text_congr_blocks {order : Order} {r r' : Registry} {top top' : List TopBlock}
    (hblocks : (arrange order top').map TopBlock.block = (arrange order top).map TopBlock.block)
    (hlookup : ∀ h, r'.lookup h = r.lookup h) : text order r' top' = text order r top := by
  have hrender : ∀ b : Block, b.render r' 0 = b.render r 0 := by
    intro b
    have h : (b.map (Node.mapHandle fun h => h)).render r' 0 = b.render r 0 :=
      Block.render_map (fun n _ h _ => hlookup (some h)) 0
    rwa [Block.map_mapHandle_id] at h
  have hempty : ∀ top : List TopBlock, top.isEmpty =
      ((arrange order top).map TopBlock.block).isEmpty := by
    intro top
    rw [List.isEmpty_map]
    cases order with
    | insertion => rfl
    | visual =>
      rw [Bool.eq_iff_iff, List.isEmpty_iff_length_eq_zero, List.isEmpty_iff_length_eq_zero,
        arrange, List.length_mergeSort]
  have htext : ∀ (r : Registry) (top : List TopBlock), text order r top =
      if ((arrange order top).map TopBlock.block).isEmpty then emptyText
      else String.join (((arrange order top).map TopBlock.block).map fun b => b.render r 0) := by
    intro r top
    rw [text, ← hempty, List.map_map]
    rfl
  rw [htext, htext, hblocks]
  simp only [hrender]

/-- As they came, chains are written by their blocks alone, and variables by their names. -/
theorem Program.text_insertion_congr {r r' : Registry} {top top' : List TopBlock}
    (hblocks : top'.map TopBlock.block = top.map TopBlock.block)
    (hlookup : ∀ h, r'.lookup h = r.lookup h) :
    text .insertion r' top' = text .insertion r top :=
  text_congr_blocks hblocks hlookup

/-- Every handle in the settings of a block is declared. -/
def Workspace.Closed (w : Workspace) : Prop :=
  ∀ b ∈ w.walk, ∀ h ∈ b.node.handles, w.registry.declares h

end BlockProgram
